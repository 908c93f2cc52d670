import EventManager.Event
import EventManager.Lib.Client
import EventManager.AtomicQueueB2.Linearizable
import EventManager.PipedEvent.Basic

/-!
# The program app10

`app10.cpp`: the thread of the manager repeats `_runImpl`, which calls `try_push` and then
`Fire`, or counts a dropped event; the thread of `main` polls, and its `Execute` calls `Produce`,
which calls `Consume`, and `was_empty` and `pop` by turns, and passes what it has popped to the
manager's `Consume`.

The program is a client of its `txQueue`.  Over the queue of elements (`withFifo`) it loses no
event (`Accounted`) and no wake-up (`WakeInv`).  The steps of the queue and those of the event
are in one sequentially consistent order, which the code does not ask for when it loads the
tickets of the queue.
-/

namespace EventManager.App10

open Steps AtomicQueueB2
open PipedEvent (SignalInv)

/-! ### The threads -/

/-- The step that `_runImpl` takes next. -/
inductive RunPc
  /-- `make_unique` of the event, whose data is random. -/
  | makeUnique
  | tryPush (event : UPtr)
  | incTx
  | fire (pc : FirePc)
  | incTxDropped
deriving DecidableEq, Repr

/-- The step that the poller takes next. -/
inductive PollPc
  /-- `epoll_wait`. -/
  | wait
  | consume (pc : ConsumePc)
  /-- The test of the loop of `Produce`, which has popped `events`. -/
  | wasEmpty (events : List UPtr)
  | pop (events : List UPtr)
  /-- The loop of `Execute` over what `Produce` has returned. -/
  | execute (events : List UPtr)
deriving DecidableEq, Repr

/-- The thread of the manager. -/
structure RunThread where
  /-- Where the thread is in `_runImpl`. -/
  pc : RunPc
  /-- The counter behind `_eventTxCounter`. -/
  eventTx : ℕ
  /-- The counter behind `_eventTxDroppedCounter`. -/
  eventTxDropped : ℕ
  /-- The events for which `try_push` has returned `true`, in order. -/
  pushed : List UPtr

/-- The thread that polls. -/
structure PollThread where
  /-- Where the thread is. -/
  pc : PollPc
  /-- The counter behind `_eventRxCounter`. -/
  eventRx : ℕ
  /-- The events that the manager's `Consume` has got, in order. -/
  received : List UPtr

/-- The state of a thread: the manager pushes, the poller pops. -/
abbrev ThreadState : Side → Type
  | .pusher => RunThread
  | .popper => PollThread

/-- The operation of `_runImpl` on the queue. -/
def RunThread.want (l : RunThread) : Option (Op UPtr) :=
  match l.pc with
  | .tryPush event => some (.tryPush event)
  | _ => none

/-- How `_runImpl` goes on after `try_push`. -/
def RunThread.resume (l : RunThread) (res : Res UPtr) : RunThread :=
  match l.pc, res with
  | .tryPush event, .bool true => { l with pc := .incTx, pushed := l.pushed ++ [event] }
  | _, _ => { l with pc := .incTxDropped }

/-- The other steps of `_runImpl`, with `data` for the random number. -/
def RunThread.act (ev : PipedEvent) (l : RunThread) (data : ℤ) :
    Option (PipedEvent × RunThread) :=
  match l.pc with
  | .makeUnique => some (ev, { l with pc := .tryPush (some (.eventA data)) })
  | .tryPush _ => none
  | .incTx => some (ev, { l with eventTx := l.eventTx + 1, pc := .fire .load })
  | .fire pc => some ((ev.fire true pc).1, { l with
      pc := match (ev.fire true pc).2 with
        | some pc' => .fire pc'
        | none => .makeUnique })
  | .incTxDropped =>
    some (ev, { l with eventTxDropped := l.eventTxDropped + 1, pc := .makeUnique })

/-- The operation of `Produce` on the queue. -/
def PollThread.want (l : PollThread) : Option (Op UPtr) :=
  match l.pc with
  | .wasEmpty _ => some (.query .wasEmpty)
  | .pop _ => some .pop
  | _ => none

/-- How `Produce` goes on after an operation. -/
def PollThread.resume (l : PollThread) (res : Res UPtr) : PollThread :=
  match l.pc, res with
  | .wasEmpty events, .bool false => { l with pc := .pop events }
  | .wasEmpty events, .bool true => { l with pc := .execute events }
  | .pop events, .elem e => { l with pc := .wasEmpty (events ++ [e]) }
  | _, _ => l

/-- The other steps of the poller: `epoll_wait` reports the pipe when it is readable. -/
def PollThread.act (ev : PipedEvent) (l : PollThread) : Option (PipedEvent × PollThread) :=
  match l.pc with
  | .wait => if ev.Readable then some (ev, { l with pc := .consume .load }) else none
  | .consume pc => (ev.consume true pc).map fun p => (p.1, { l with
      pc := match p.2 with
        | some pc' => .consume pc'
        | none => .wasEmpty [] })
  | .wasEmpty _ => none
  | .pop _ => none
  | .execute [] => some (ev, { l with pc := .wait })
  | .execute (e :: events) => some (ev, { l with
      pc := .execute events
      eventRx := l.eventRx + 1
      received := l.received ++ [e] })

/-- The program as a client of its queue, when `pipe` returns `fds`. -/
def client (fds : ℤ × ℤ) : Client PipedEvent Side (Op UPtr) (Res UPtr) ℤ ThreadState where
  init := .create fds
  threads
    | .pusher => (⟨.makeUnique, 0, 0, []⟩ : RunThread)
    | .popper => (⟨.wait, 0, []⟩ : PollThread)
  want
    | .pusher, l => RunThread.want l
    | .popper, l => PollThread.want l
  resume
    | .pusher, l, res => RunThread.resume l res
    | .popper, l, res => PollThread.resume l res
  act
    | .pusher, ev, l, data => RunThread.act ev l data
    | .popper, ev, l, _ => PollThread.act ev l

/-- The program over a queue of elements. -/
def withFifo (fds : ℤ × ℤ) (capacity : ℕ) :
    Machine (Client.State (List UPtr) PipedEvent ThreadState) (Client.Action Side ℤ Unit) :=
  (client fds).withObject (elementFifo UPtr capacity)

/-- `MAX_QUEUE_SIZE`. -/
def MAX_QUEUE_SIZE : BitVec 32 := 3500000

/-- The program over its `AtomicQueueB2`. -/
def app10 (fds : ℤ × ℤ) :
    Machine (Client.ImplState (AtomicQueueB2.Client UPtr) PipedEvent (Op UPtr) (Side × Pc UPtr)
      ThreadState) (Client.ImplAction Side ℤ Bool) :=
  (client fds).withImpl (twoThreads (create UPtr MAX_QUEUE_SIZE))

/-! ### Over the queue of elements -/

/-- The thread of the manager. -/
abbrev run {ν : Type} (s : Client.State ν PipedEvent ThreadState) : RunThread :=
  s.threads .pusher

/-- The thread that polls. -/
abbrev poll {ν : Type} (s : Client.State ν PipedEvent ThreadState) : PollThread :=
  s.threads .popper

/-- The events that the poller has popped and not yet passed on. -/
def PollPc.held : PollPc → List UPtr
  | .wasEmpty events => events
  | .pop events => events
  | .execute events => events
  | _ => []

/-- The counter of the manager is right. -/
def RunThread.Counted (l : RunThread) : Prop :=
  l.pushed.length = l.eventTx + if l.pc = .incTx then 1 else 0

/-- What has been pushed has been received, is held by the poller, or is in the queue, and the
counters are right. -/
structure Accounted (s : Client.State (List UPtr) PipedEvent ThreadState) : Prop where
  pushed : (run s).pushed = (poll s).received ++ ((poll s).pc.held ++ s.value)
  eventTx : (run s).Counted
  eventRx : (poll s).received.length = (poll s).eventRx

/-- The manager has pushed an event and has yet to come back from `Fire`. -/
def RunPc.Signalling : RunPc → Prop
  | .incTx => True
  | .fire _ => True
  | _ => False

/-- The step of `Fire` that the manager is at. -/
def RunPc.firePc : RunPc → Option FirePc
  | .fire pc => some pc
  | _ => none

/-- The step of `Consume` that the poller is at. -/
def PollPc.consumePc : PollPc → Option ConsumePc
  | .consume pc => some pc
  | _ => none

/-- The poller is about to look at the queue before it waits again. -/
def PollPc.Draining : PollPc → Prop
  | .consume .store => True
  | .wasEmpty _ => True
  | .pop _ => True
  | _ => False

/-- Flag and pipe agree, and the flag is set when there is an event that neither thread is going
to attend to. -/
structure WakeInv (s : Client.State (List UPtr) PipedEvent ThreadState) : Prop where
  signal : SignalInv s.shared (run s).pc.firePc (poll s).pc.consumePc
  wake : s.value ≠ [] → ¬ (run s).pc.Signalling → ¬ (poll s).pc.Draining →
    s.shared.fired = true
  /-- `pop` is called when the queue is not empty. -/
  pop : ∀ events, (poll s).pc = .pop events → s.value ≠ []

/-! ### Steps -/

variable {fds : ℤ × ℤ} {n : ℕ} {s t : Client.State (List UPtr) PipedEvent ThreadState}

lemma next_cases {act : Client.Action Side ℤ Unit} (h : (withFifo fds n).next s act = some t) :
    (∃ event, (run s).pc = .tryPush event ∧
      t = ⟨s.value ++ [event], s.shared, Function.update s.threads .pusher
        ({ run s with pc := .incTx, pushed := (run s).pushed ++ [event] } : RunThread)⟩) ∨
    (∃ event, (run s).pc = .tryPush event ∧
      t = ⟨s.value, s.shared, Function.update s.threads .pusher
        ({ run s with pc := .incTxDropped } : RunThread)⟩) ∨
    (∃ events, (poll s).pc = .wasEmpty events ∧
      t = ⟨s.value, s.shared, Function.update s.threads .popper
        ({ poll s with
          pc := if s.value = [] then .execute events else .pop events } : PollThread)⟩) ∨
    (∃ events e rest, (poll s).pc = .pop events ∧ s.value = e :: rest ∧
      t = ⟨rest, s.shared, Function.update s.threads .popper
        ({ poll s with pc := .wasEmpty (events ++ [e]) } : PollThread)⟩) ∨
    (∃ data ev l, RunThread.act s.shared (run s) data = some (ev, l) ∧
      t = ⟨s.value, ev, Function.update s.threads .pusher l⟩) ∨
    ∃ ev l, PollThread.act s.shared (poll s) = some (ev, l) ∧
      t = ⟨s.value, ev, Function.update s.threads .popper l⟩ := by
  cases act with
  | op u =>
    obtain ⟨op, hop, h⟩ := Option.bind_eq_some_iff.mp h
    obtain ⟨⟨value, res⟩, happly, rfl⟩ := Option.map_eq_some_iff.mp h
    cases u with
    | pusher =>
      have hwant : RunThread.want (run s) = some op := hop
      simp only [RunThread.want] at hwant
      split at hwant
      · rename_i event hpc
        cases hwant
        rw [elementFifo_tryPush] at happly
        split at happly
        · cases happly
          refine Or.inl ⟨event, hpc, ?_⟩
          simp [client, RunThread.resume, hpc]
        · cases happly
          refine Or.inr (Or.inl ⟨event, hpc, ?_⟩)
          simp [client, RunThread.resume, hpc]
      · cases hwant
    | popper =>
      have hwant : PollThread.want (poll s) = some op := hop
      simp only [PollThread.want] at hwant
      split at hwant
      · rename_i events hpc
        cases hwant
        rw [elementFifo_query] at happly
        cases happly
        refine Or.inr (Or.inr (Or.inl ⟨events, hpc, ?_⟩))
        cases hvalue : s.value <;> simp [client, PollThread.resume, hpc]
      · rename_i events hpc
        cases hwant
        obtain ⟨e, hvalue, rfl⟩ := elementFifo_pop happly
        refine Or.inr (Or.inr (Or.inr (Or.inl ⟨events, e, value, hpc, hvalue, ?_⟩)))
        simp [client, PollThread.resume, hpc]
      · cases hwant
  | act u data =>
    obtain ⟨⟨ev, l⟩, hact, rfl⟩ := Option.map_eq_some_iff.mp h
    cases u with
    | pusher => exact Or.inr (Or.inr (Or.inr (Or.inr (Or.inl ⟨data, ev, l, hact, rfl⟩))))
    | popper => exact Or.inr (Or.inr (Or.inr (Or.inr (Or.inr ⟨ev, l, hact, rfl⟩))))

lemma run_act_pushed {l l' : RunThread} {ev ev' : PipedEvent} {data : ℤ}
    (h : RunThread.act ev l data = some (ev', l')) :
    l'.pushed = l.pushed ∧ (l.Counted → l'.Counted) := by
  simp only [RunThread.Counted, RunThread.act] at h ⊢
  split at h <;> cases h
  · rename_i hpc
    exact ⟨rfl, by simp [hpc]⟩
  · rename_i hpc
    exact ⟨rfl, by simp [hpc]⟩
  · rename_i pc hpc
    refine ⟨rfl, ?_⟩
    cases (ev.fire true pc).2 <;> simp [hpc]
  · rename_i hpc
    exact ⟨rfl, by simp [hpc]⟩

lemma poll_act_received {l l' : PollThread} {ev ev' : PipedEvent}
    (h : PollThread.act ev l = some (ev', l')) :
    l'.received ++ l'.pc.held = l.received ++ l.pc.held ∧
      (l.received.length = l.eventRx → l'.received.length = l'.eventRx) := by
  simp only [PollThread.act] at h
  split at h
  · rename_i hpc
    split at h <;> cases h
    exact ⟨by simp [PollPc.held, hpc], id⟩
  · rename_i pc hpc
    obtain ⟨⟨ev₁, pc'⟩, -, heq⟩ := Option.map_eq_some_iff.mp h
    cases heq
    cases pc' <;> exact ⟨by simp [PollPc.held, hpc], id⟩
  · cases h
  · cases h
  · rename_i hpc
    cases h
    exact ⟨by simp [PollPc.held, hpc], id⟩
  · rename_i e events hpc
    cases h
    exact ⟨by simp [PollPc.held, hpc], fun hlen => by simp [hlen]⟩

lemma accounted_step {act : Client.Action Side ℤ Unit} (hI : Accounted s)
    (h : (withFifo fds n).next s act = some t) : Accounted t := by
  obtain ⟨hpushed, htx, hrx⟩ := hI
  rcases next_cases h with ⟨event, hpc, rfl⟩ | ⟨event, hpc, rfl⟩ | ⟨events, hpc, rfl⟩ |
    ⟨events, e, rest, hpc, hvalue, rfl⟩ | ⟨data, ev, l, hact, rfl⟩ | ⟨ev, l, hact, rfl⟩
  · refine ⟨?_, ?_, hrx⟩
    · show (run s).pushed ++ [event] = _
      rw [hpushed]
      simp [poll]
    · simp only [RunThread.Counted, hpc, reduceCtorEq, if_false] at htx
      simp [RunThread.Counted, run, htx]
  · refine ⟨hpushed, ?_, hrx⟩
    simpa [RunThread.Counted, run, hpc] using htx
  · refine ⟨?_, htx, hrx⟩
    rw [hpc] at hpushed
    show (run s).pushed = _
    rw [hpushed]
    cases hvalue : s.value <;> simp [poll, PollPc.held]
  · refine ⟨?_, htx, hrx⟩
    rw [hpc, hvalue] at hpushed
    show (run s).pushed = _
    rw [hpushed]
    simp [poll, PollPc.held]
  · obtain ⟨heq, hcount⟩ := run_act_pushed hact
    refine ⟨?_, hcount htx, hrx⟩
    show l.pushed = _
    rw [heq]
    exact hpushed
  · obtain ⟨heq, hcount⟩ := poll_act_received hact
    refine ⟨?_, htx, ?_⟩
    · show (run s).pushed = l.received ++ (l.pc.held ++ s.value)
      rw [← List.append_assoc, heq, List.append_assoc]
      exact hpushed
    · exact hcount hrx

lemma accounted_of_reachable (h : (withFifo fds n).Reachable s) : Accounted s := by
  refine h.invariant (I := Accounted) ?_ fun s act t hI hs => accounted_step hI hs
  rintro s rfl
  exact ⟨rfl, rfl, rfl⟩

lemma wakeInv_step {act : Client.Action Side ℤ Unit} (hI : WakeInv s)
    (h : (withFifo fds n).next s act = some t) : WakeInv t := by
  obtain ⟨hsignal, hwake, hpop⟩ := hI
  rcases next_cases h with ⟨event, hpc, rfl⟩ | ⟨event, hpc, rfl⟩ | ⟨events, hpc, rfl⟩ |
    ⟨events, e, rest, hpc, hvalue, rfl⟩ | ⟨data, ev, l, hact, rfl⟩ | ⟨ev, l, hact, rfl⟩
  · -- `try_push` succeeds, and `Fire` is to follow
    rw [hpc] at hsignal
    exact ⟨hsignal, fun _ hnot => absurd trivial hnot, fun _ _ => by simp⟩
  · rw [hpc] at hsignal hwake
    exact ⟨hsignal, fun hne _ hdrain => hwake hne id hdrain, hpop⟩
  · rw [hpc] at hsignal
    cases hvalue : s.value with
    | nil => exact ⟨hsignal, fun hne => absurd rfl hne, fun _ hpop => by cases hpop⟩
    | cons e rest =>
      exact ⟨hsignal, fun _ _ hdrain => absurd trivial hdrain, fun _ _ hnil => by cases hnil⟩
  · rw [hpc] at hsignal
    exact ⟨hsignal, fun _ _ hdrain => absurd trivial hdrain, fun _ hpop => by cases hpop⟩
  · simp only [RunThread.act] at hact
    split at hact <;> cases hact
    · rename_i hpc
      rw [hpc] at hsignal hwake
      exact ⟨hsignal, fun hne _ hdrain => hwake hne id hdrain, hpop⟩
    · rename_i hpc
      rw [hpc] at hsignal
      exact ⟨hsignal.callFire, fun _ hnot => absurd trivial hnot, hpop⟩
    · rename_i pc hpc
      rw [hpc] at hsignal
      have hfire := hsignal.fire
      cases hpc' : (s.shared.fire true pc).2 with
      | none =>
        rw [hpc'] at hfire
        exact ⟨hfire, fun _ _ _ => hsignal.fired_of_fire hpc', hpop⟩
      | some pc' =>
        rw [hpc'] at hfire
        exact ⟨hfire, fun _ hnot => absurd trivial hnot, hpop⟩
    · rename_i hpc
      rw [hpc] at hsignal hwake
      exact ⟨hsignal, fun hne _ hdrain => hwake hne id hdrain, hpop⟩
  · simp only [PollThread.act] at hact
    split at hact
    · rename_i hpc
      split at hact <;> cases hact
      rw [hpc] at hsignal hwake
      exact ⟨hsignal.callConsume, fun hne hnot _ => hwake hne hnot id, fun _ hpop => by cases hpop⟩
    · rename_i pc hpc
      obtain ⟨⟨ev₁, pc'⟩, hconsume, heq⟩ := Option.map_eq_some_iff.mp hact
      cases heq
      rw [hpc] at hsignal hwake
      have hconsumed := hsignal.consume hconsume
      cases pc' with
      | none =>
        exact ⟨hconsumed, fun _ _ hdrain => absurd trivial hdrain, fun _ hpop => by cases hpop⟩
      | some pc' =>
        refine ⟨hconsumed, fun hne hnot hdrain => ?_, fun _ hpop => by cases hpop⟩
        -- only the step after the read clears the flag, and it is followed by `was_empty`
        rcases PipedEvent.consume_cases hconsume with ⟨-, -, hnone, -⟩ |
          ⟨rfl, rfl, hsome, -, hfired⟩ | ⟨-, -, hsome, -⟩ | ⟨-, -, hnone⟩
        · cases hnone
        · exact hfired
        · cases hsome
          exact absurd trivial hdrain
        · cases hnone
    · cases hact
    · cases hact
    · rename_i hpc
      cases hact
      rw [hpc] at hsignal hwake
      exact ⟨hsignal, fun hne hnot _ => hwake hne hnot id, fun _ hpop => by cases hpop⟩
    · rename_i e events hpc
      cases hact
      rw [hpc] at hsignal hwake
      exact ⟨hsignal, fun hne hnot _ => hwake hne hnot id, fun _ hpop => by cases hpop⟩

lemma wakeInv_of_reachable (hfds : fds.1 ≠ 0) (h : (withFifo fds n).Reachable s) : WakeInv s := by
  refine h.invariant (I := WakeInv) ?_ fun s act t hI hs => wakeInv_step hI hs
  rintro s rfl
  exact ⟨.create hfds, fun hne => absurd rfl hne, fun _ hpop => by cases hpop⟩

end EventManager.App10
