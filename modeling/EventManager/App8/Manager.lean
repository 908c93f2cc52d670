import EventManager.Event
import EventManager.PipedEvent.Basic

/-!
# The manager of app8

`ManagerA` of `app8.cpp` has two queues with a mutex each.  `_runImpl` puts an event into the
first queue whose mutex `try_lock` gets, trying the first queue first; `Produce` takes all
events of one queue, trying the second queue first.  `manager` is the machine of the manager's
thread, which repeats `_runImpl`, and of the poller's, which repeats `Produce`.  A call of
`try_lock` may fail although nobody holds the mutex.

The two queues are told apart by a `Slot`: `txQueue .one` is `txQueue1`.
-/

namespace EventManager.App8

open Steps

/-- One of the two queues, with its mutex. -/
inductive Slot
  | one
  | two
deriving DecidableEq, Repr

instance : Fintype Slot := ⟨{.one, .two}, fun i => by cases i <;> decide⟩

/-- The two threads. -/
inductive Thread
  | manager
  | poller
deriving DecidableEq, Repr

/-- The step that `_runImpl` takes next. -/
inductive RunPc
  /-- Between two calls. -/
  | outside
  | tryLock (i : Slot) (event : UPtr)
  | emplaceBack (i : Slot) (event : UPtr)
  | unlock (i : Slot)
  | incTxDropped
  | incTx
  | fire (pc : FirePc)
deriving DecidableEq, Repr

/-- The step that `Produce` takes next, and the list `events` once it is filled. -/
inductive PollPc
  /-- Between two calls. -/
  | outside
  | tryLock (i : Slot)
  | empty (i : Slot)
  | swap (i : Slot)
  | unlock (i : Slot) (events : List UPtr)
  | consume (pc : ConsumePc) (events : List UPtr)
deriving DecidableEq, Repr

/-- Where `_runImpl` goes on when `try_lock` fails. -/
def RunPc.busy (event : UPtr) : Slot → RunPc
  | .one => .tryLock .two event
  | .two => .incTxDropped

/-- Where `Produce` goes on when a condition is false. -/
def PollPc.otherwise : Slot → PollPc
  | .two => .tryLock .one
  | .one => .consume .load []

/-- The manager, the two threads, and what has happened so far. -/
structure ManagerA where
  /-- `txEvent`. -/
  txEvent : PipedEvent
  /-- `txQueue1` and `txQueue2`. -/
  txQueue : Slot → List UPtr
  /-- The threads that hold `txMutex1` and `txMutex2`. -/
  txMutex : Slot → Option Thread
  /-- The counter behind `_eventTxCounter`. -/
  eventTx : ℕ
  /-- The counter behind `_eventTxDroppedCounter`. -/
  eventTxDropped : ℕ
  /-- Where the manager's thread is. -/
  run : RunPc
  /-- Where the poller is. -/
  poll : PollPc
  /-- The events that `_runImpl` has put into a queue, in order. -/
  enqueued : List UPtr
  /-- The events that `Produce` has returned, in order. -/
  returned : List UPtr

/-- A step of the manager's thread, with `data` for the random number, or of the poller, with
`granted` for what `try_lock` returns where the standard leaves it open. -/
inductive Action
  | run (data : ℤ) (granted : Bool)
  | poll (granted : Bool)
deriving DecidableEq, Repr

namespace ManagerA

/-- The manager before its threads start, with queues that hold `txQueue`. -/
def start (fds : ℤ × ℤ) (txQueue : Slot → List UPtr) : ManagerA where
  txEvent := .create fds
  txQueue := txQueue
  txMutex _ := none
  eventTx := 0
  eventTxDropped := 0
  run := .outside
  poll := .outside
  enqueued := []
  returned := []

/-- `try_lock`, called by `thread`.  On a mutex that nobody holds it may fail spuriously, and on
one that the caller holds already its result is undefined. -/
def tryLock (s : ManagerA) (thread : Thread) (i : Slot) (granted : Bool) : Bool :=
  match s.txMutex i with
  | none => granted
  | some holder => holder == thread && granted

/-- One step of `_runImpl`. -/
def runImpl (s : ManagerA) (data : ℤ) (granted : Bool) : ManagerA :=
  match s.run with
  | .outside => { s with run := .tryLock .one (some (.eventA data)) }
  | .tryLock i event =>
    if s.tryLock .manager i granted then
      { s with
        txMutex := Function.update s.txMutex i (some .manager)
        run := .emplaceBack i event }
    else { s with run := .busy event i }
  | .emplaceBack i event => { s with
      txQueue := Function.update s.txQueue i (s.txQueue i ++ [event])
      enqueued := s.enqueued ++ [event]
      run := .unlock i }
  | .unlock i => { s with txMutex := Function.update s.txMutex i none, run := .incTx }
  | .incTxDropped => { s with eventTxDropped := s.eventTxDropped + 1, run := .outside }
  | .incTx => { s with eventTx := s.eventTx + 1, run := .fire .load }
  | .fire pc => { s with
      txEvent := (s.txEvent.fire true pc).1
      run := match (s.txEvent.fire true pc).2 with
        | some pc' => .fire pc'
        | none => .outside }

/-- One step of `Produce`. -/
def produce (s : ManagerA) (granted : Bool) : Option ManagerA :=
  match s.poll with
  | .outside => some { s with poll := .tryLock .two }
  | .tryLock i =>
    if s.tryLock .poller i granted then
      some { s with
        txMutex := Function.update s.txMutex i (some .poller)
        poll := .empty i }
    else some { s with poll := .otherwise i }
  | .empty i =>
    -- the mutex stays locked when the queue is empty
    if s.txQueue i = [] then some { s with poll := .otherwise i }
    else some { s with poll := .swap i }
  | .swap i => some { s with
      txQueue := Function.update s.txQueue i []
      poll := .unlock i (s.txQueue i) }
  | .unlock i events => some { s with
      txMutex := Function.update s.txMutex i none
      poll := .consume .load events }
  | .consume pc events => (s.txEvent.consume true pc).map fun r => { s with
      txEvent := r.1
      poll := match r.2 with
        | some pc' => .consume pc' events
        | none => .outside
      returned := match r.2 with
        | some _ => s.returned
        | none => s.returned ++ events }

end ManagerA

/-- The manager's thread and the poller, on queues that hold `txQueue`. -/
def manager (fds : ℤ × ℤ) (txQueue : Slot → List UPtr) : Machine ManagerA Action where
  init s := s = .start fds txQueue
  next s
    | .run data granted => some (s.runImpl data granted)
    | .poll granted => s.produce granted

namespace ManagerA

variable {s t : ManagerA}

lemma ne_of_tryLock {thread holder : Thread} {i : Slot} {granted : Bool}
    (h : s.tryLock thread i granted = true) (hne : holder ≠ thread) :
    s.txMutex i ≠ some holder := by
  intro hheld
  simp [tryLock, hheld, hne] at h

lemma eq_false_of_tryLock {thread : Thread} {i : Slot} {granted : Bool}
    (h : ¬ s.tryLock thread i granted = true) (hfree : s.txMutex i = none) :
    granted = false := by
  simpa [tryLock, hfree] using h

/-! ### What the steps do -/

/-- The steps of `_runImpl`, by what they do to the queues and the mutexes. -/
inductive Runs (s : ManagerA) (granted : Bool) : ManagerA → Prop
  | call (data : ℤ) (h : s.run = .outside) :
      Runs s granted { s with run := .tryLock .one (some (.eventA data)) }
  | lock (i : Slot) (event : UPtr) (h : s.run = .tryLock i event)
      (hfree : s.txMutex i ≠ some .poller) :
      Runs s granted { s with
        txMutex := Function.update s.txMutex i (some .manager)
        run := .emplaceBack i event }
  | busy (i : Slot) (event : UPtr) (h : s.run = .tryLock i event)
      (hfails : s.txMutex i = none → granted = false) :
      Runs s granted { s with run := .busy event i }
  | emplaceBack (i : Slot) (event : UPtr) (h : s.run = .emplaceBack i event) :
      Runs s granted { s with
        txQueue := Function.update s.txQueue i (s.txQueue i ++ [event])
        enqueued := s.enqueued ++ [event]
        run := .unlock i }
  | unlock (i : Slot) (h : s.run = .unlock i) :
      Runs s granted { s with txMutex := Function.update s.txMutex i none, run := .incTx }
  | finish (ev : PipedEvent) (eventTx eventTxDropped : ℕ) (run' : RunPc)
      (h : s.run = .incTxDropped ∨ s.run = .incTx ∨ ∃ pc, s.run = .fire pc)
      (h' : run' = .outside ∨ ∃ pc, run' = .fire pc) :
      Runs s granted { s with
        txEvent := ev, eventTx := eventTx, eventTxDropped := eventTxDropped, run := run' }

lemma runs_runImpl (s : ManagerA) (data : ℤ) (granted : Bool) :
    s.Runs granted (s.runImpl data granted) := by
  cases hrun : s.run with
  | outside =>
    simp only [runImpl, hrun]
    exact .call data hrun
  | tryLock i event =>
    simp only [runImpl, hrun]
    split
    · rename_i hlock
      exact .lock i event hrun (ne_of_tryLock hlock (by decide))
    · rename_i hlock
      exact .busy i event hrun (eq_false_of_tryLock hlock)
  | emplaceBack i event =>
    simp only [runImpl, hrun]
    exact .emplaceBack i event hrun
  | unlock i =>
    simp only [runImpl, hrun]
    exact .unlock i hrun
  | incTxDropped =>
    simp only [runImpl, hrun]
    exact .finish _ _ _ _ (Or.inl hrun) (Or.inl rfl)
  | incTx =>
    simp only [runImpl, hrun]
    exact .finish _ _ _ _ (Or.inr (Or.inl hrun)) (Or.inr ⟨.load, rfl⟩)
  | fire pc =>
    simp only [runImpl, hrun]
    refine .finish _ _ _ _ (Or.inr (Or.inr ⟨pc, hrun⟩)) ?_
    split
    · exact Or.inr ⟨_, rfl⟩
    · exact Or.inl rfl

/-- The steps of `Produce`, by what they do to the queues and the mutexes. -/
inductive Produces (s : ManagerA) (granted : Bool) : ManagerA → Prop
  | call (h : s.poll = .outside) : Produces s granted { s with poll := .tryLock .two }
  | lock (i : Slot) (h : s.poll = .tryLock i) (hfree : s.txMutex i ≠ some .manager) :
      Produces s granted { s with
        txMutex := Function.update s.txMutex i (some .poller)
        poll := .empty i }
  | busy (i : Slot) (h : s.poll = .tryLock i)
      (hfails : s.txMutex i = none → granted = false) :
      Produces s granted { s with poll := .otherwise i }
  | empty (i : Slot) (h : s.poll = .empty i) (hq : s.txQueue i = []) :
      Produces s granted { s with poll := .otherwise i }
  | nonempty (i : Slot) (h : s.poll = .empty i) (hq : s.txQueue i ≠ []) :
      Produces s granted { s with poll := .swap i }
  | swap (i : Slot) (h : s.poll = .swap i) :
      Produces s granted { s with
        txQueue := Function.update s.txQueue i []
        poll := .unlock i (s.txQueue i) }
  | unlock (i : Slot) (events : List UPtr) (h : s.poll = .unlock i events) :
      Produces s granted { s with
        txMutex := Function.update s.txMutex i none
        poll := .consume .load events }
  | consume (pc pc' : ConsumePc) (events : List UPtr) (ev : PipedEvent)
      (h : s.poll = .consume pc events) :
      Produces s granted { s with txEvent := ev, poll := .consume pc' events }
  | finish (pc : ConsumePc) (events : List UPtr) (ev : PipedEvent)
      (h : s.poll = .consume pc events) :
      Produces s granted { s with
        txEvent := ev, poll := .outside, returned := s.returned ++ events }

lemma produces_produce {granted : Bool} (h : s.produce granted = some t) :
    s.Produces granted t := by
  cases hpoll : s.poll with
  | outside =>
    simp only [produce, hpoll] at h
    cases h
    exact .call hpoll
  | tryLock i =>
    simp only [produce, hpoll] at h
    split at h
    · rename_i hlock
      cases h
      exact .lock i hpoll (ne_of_tryLock hlock (by decide))
    · rename_i hlock
      cases h
      exact .busy i hpoll (eq_false_of_tryLock hlock)
  | empty i =>
    simp only [produce, hpoll] at h
    split at h
    · cases h
      exact .empty i hpoll ‹_›
    · cases h
      exact .nonempty i hpoll ‹_›
  | swap i =>
    simp only [produce, hpoll] at h
    cases h
    exact .swap i hpoll
  | unlock i events =>
    simp only [produce, hpoll] at h
    cases h
    exact .unlock i events hpoll
  | consume pc events =>
    simp only [produce, hpoll] at h
    obtain ⟨⟨ev, pc'⟩, -, rfl⟩ := Option.map_eq_some_iff.mp h
    cases pc' with
    | some pc' => exact .consume pc pc' events ev hpoll
    | none => exact .finish pc events ev hpoll

end ManagerA

end EventManager.App8
