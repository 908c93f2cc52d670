import EventManager.Event
import EventManager.LockeFreeQueue.Chain
import EventManager.PipedEvent.Basic
import EventManager.Wrapper.Basic

/-!
# The programs app6 and app7

`app6.cpp` and `app7.cpp` are one program with two implementations of `txQueue`: the
`LockeFreeQueue`, and the list of `inc/List.h` behind its mutex.  `TxQueue` is what the
program uses of either; `sender` is the machine of the manager's thread, which repeats
`_runImpl`, and of the poller's, which runs `Produce` whenever the pipe is readable and
passes what it returns to `Consume`.

Unlike app12, `Produce` drains the queue first and consumes the signal after that.
-/

namespace EventManager.App6

open Steps

/-! ### The queue -/

/-- What the program uses of `txQueue`: the steps of `emplace_back` and of `swap`, and what
it is to hold an element.  An element is in the queue from one of the steps of
`emplace_back` on. -/
structure TxQueue (T : Type) where
  /-- The members of the queue. -/
  Queue : Type
  /-- The step that a call of `emplace_back` takes next. -/
  EmplacePc : Type
  /-- The step that a call of `swap` takes next. -/
  SwapPc : Type
  /-- The constructor. -/
  create : Queue
  /-- A call of `emplace_back` begins. -/
  callEmplaceBack : T → EmplacePc
  /-- One step of `emplace_back`. -/
  emplaceBack : Queue → EmplacePc → Option (Queue × Option EmplacePc)
  /-- A call of `swap` begins. -/
  callSwap : Queue → SwapPc
  /-- One step of `swap`, and the list that it leaves in its argument. -/
  swap : Queue → SwapPc → List T → Option (Queue × List T × Option SwapPc)
  /-- A call of `swap` that begins here finds an element. -/
  Nonempty : Queue → Prop
  /-- The call of `emplace_back` has put its element into the queue. -/
  Emplaced : EmplacePc → Prop
  not_nonempty_create : ¬ Nonempty create
  nonempty_emplaceBack : ∀ {q q' pc pc'}, emplaceBack q pc = some (q', pc') → Nonempty q' →
    Nonempty q ∨ ∀ pc'', pc' = some pc'' → Emplaced pc''
  emplaced_emplaceBack : ∀ {q q' pc pc'}, emplaceBack q pc = some (q', some pc') →
    Emplaced pc → Emplaced pc'

/-- The `LockeFreeQueue` of app6.  It holds an element when the dummy has a successor. -/
def lockeFree (T : Type) [Inhabited T] : TxQueue T where
  Queue := LockeFreeQueue T
  EmplacePc := EventManager.EmplacePc T
  SwapPc := EventManager.SwapPc
  create := .create
  callEmplaceBack := LockeFreeQueue.callEmplaceBack
  emplaceBack := LockeFreeQueue.emplaceBack
  callSwap := LockeFreeQueue.callSwap
  swap q pc events := (q.swap pc).map fun p => (p.1, events ++ p.2.1, p.2.2)
  Nonempty q := LockeFreeQueue.nextOf q.heap q.head ≠ none
  Emplaced _ := False
  not_nonempty_create h := h rfl
  nonempty_emplaceBack := by
    intro q q' pc pc' h hne
    rcases LockeFreeQueue.emplaceBack_cases h with ⟨args, rfl, rfl, rfl⟩ |
      ⟨args, n, rfl, rfl, rfl⟩ | ⟨prev, n, h', rfl, -, rfl, rfl⟩
    · -- the new node has no successor
      left
      by_cases hf : q.head = q.heap.fresh
      · exact absurd (by simp [LockeFreeQueue.nextOf, hf]) hne
      · rwa [LockeFreeQueue.nextOf_eq (Heap.alloc_cell_of_ne _ hf)] at hne
    · exact Or.inl hne
    · exact Or.inr fun pc'' hpc => by cases hpc
  emplaced_emplaceBack _ he := he

/-- The list behind a mutex of app7. -/
def wrapped (T : Type) : TxQueue T where
  Queue := Wrapper (List T)
  EmplacePc := T × ProxyPc
  SwapPc := ProxyPc
  create := .create []
  callEmplaceBack e := (e, .lock)
  emplaceBack w pc := (w.proxy (fun l => (l ++ [pc.1], ())) pc.2).map fun p =>
    (p.1, p.2.2.map fun pc' => (pc.1, pc'))
  callSwap _ := .lock
  swap w pc events := (w.proxy (fun l => (events, l)) pc).map fun p =>
    (p.1, p.2.1.getD events, p.2.2)
  Nonempty w := w.data ≠ []
  Emplaced pc := pc.2 = .unlock
  not_nonempty_create h := h rfl
  nonempty_emplaceBack := by
    rintro w w' ⟨e, pc⟩ pc' h hne
    obtain ⟨⟨w₁, r, pc₁⟩, hp, heq⟩ := Option.map_eq_some_iff.mp h
    cases heq
    rcases Wrapper.proxy_cases hp with ⟨rfl, -, rfl, -, rfl⟩ | ⟨rfl, rfl, -, rfl⟩ |
      ⟨rfl, rfl, -, rfl⟩
    · exact Or.inl hne
    · refine Or.inr fun pc'' hpc => ?_
      cases hpc
      rfl
    · exact Or.inl hne
  emplaced_emplaceBack := by
    rintro w w' ⟨e, pc⟩ pc' h hpc
    obtain rfl : pc = .unlock := hpc
    cases h

/-! ### The two threads -/

variable {tx : TxQueue UPtr}

/-- The step that `_runImpl` takes next. -/
inductive RunPc (tx : TxQueue UPtr)
  /-- `make_unique` of the event, whose data is random. -/
  | makeUnique
  | emplace (pc : tx.EmplacePc)
  | incTx
  | fire (pc : FirePc)

/-- The step that the poller takes next, and the list `events` of `Produce`. -/
inductive PollPc (tx : TxQueue UPtr)
  /-- `epoll_wait`. -/
  | wait
  | swap (pc : tx.SwapPc) (events : List UPtr)
  | consume (pc : ConsumePc) (events : List UPtr)
  /-- The loop of `Execute` over what `Produce` has returned. -/
  | execute (events : List UPtr)

/-- The manager and the two threads. -/
structure Sender (tx : TxQueue UPtr) where
  /-- `txEvent`. -/
  txEvent : PipedEvent
  /-- `txQueue`. -/
  txQueue : tx.Queue
  /-- The counter behind `_eventTxCounter`. -/
  eventTx : ℕ
  /-- The counter behind `_eventRxCounter`. -/
  eventRx : ℕ
  /-- Where the manager's thread is in `_runImpl`. -/
  run : RunPc tx
  /-- Where the poller is. -/
  poll : PollPc tx

/-- A step of the manager's thread, with `data` for the random number, or of the poller. -/
inductive Action
  | run (data : ℤ)
  | poll
deriving DecidableEq, Repr

namespace Sender

/-- Before the threads start. -/
def create (tx : TxQueue UPtr) (fds : ℤ × ℤ) : Sender tx :=
  ⟨.create fds, tx.create, 0, 0, .makeUnique, .wait⟩

/-- One step of `_runImpl`. -/
def runImpl (s : Sender tx) (data : ℤ) : Option (Sender tx) :=
  match s.run with
  | .makeUnique => some { s with
      run := .emplace (tx.callEmplaceBack (some (.eventA data))) }
  | .emplace pc => (tx.emplaceBack s.txQueue pc).map fun p => { s with
      txQueue := p.1
      run := match p.2 with
        | some pc' => .emplace pc'
        | none => .incTx }
  | .incTx => some { s with eventTx := s.eventTx + 1, run := .fire .load }
  | .fire pc => some { s with
      txEvent := (s.txEvent.fire true pc).1
      run := match (s.txEvent.fire true pc).2 with
        | some pc' => .fire pc'
        | none => .makeUnique }

/-- One step of the poller: `epoll_wait` reports the pipe when it is readable. -/
def pollImpl (s : Sender tx) : Option (Sender tx) :=
  match s.poll with
  | .wait =>
    if s.txEvent.Readable then some { s with poll := .swap (tx.callSwap s.txQueue) [] }
    else none
  | .swap pc events => (tx.swap s.txQueue pc events).map fun p => { s with
      txQueue := p.1
      poll := match p.2.2 with
        | some pc' => .swap pc' p.2.1
        | none => .consume .load p.2.1 }
  | .consume pc events => (s.txEvent.consume true pc).map fun p => { s with
      txEvent := p.1
      poll := match p.2 with
        | some pc' => .consume pc' events
        | none => .execute events }
  | .execute [] => some { s with poll := .wait }
  | .execute (_ :: events) =>
    some { s with eventRx := s.eventRx + 1, poll := .execute events }

end Sender

/-- The manager's thread and the poller. -/
def sender (tx : TxQueue UPtr) (fds : ℤ × ℤ) : Machine (Sender tx) Action where
  init s := s = .create tx fds
  next s
    | .run data => s.runImpl data
    | .poll => s.pollImpl

/-- The two programs. -/
inductive App
  | app6
  | app7
deriving DecidableEq

/-- The type of `txQueue`. -/
def App.txQueue : App → TxQueue UPtr
  | .app6 => lockeFree UPtr
  | .app7 => wrapped UPtr

namespace Sender

variable {fds : ℤ × ℤ}

/-! ### What the steps do -/

lemma runImpl_cases {s t : Sender tx} {data : ℤ} (h : s.runImpl data = some t) :
    (s.run = .makeUnique ∧ t = { s with
      run := .emplace (tx.callEmplaceBack (some (.eventA data))) }) ∨
    (∃ pc q pc', s.run = .emplace pc ∧ tx.emplaceBack s.txQueue pc = some (q, some pc') ∧
      t = { s with txQueue := q, run := .emplace pc' }) ∨
    (∃ pc q, s.run = .emplace pc ∧ tx.emplaceBack s.txQueue pc = some (q, none) ∧
      t = { s with txQueue := q, run := .incTx }) ∨
    (s.run = .incTx ∧ t = { s with eventTx := s.eventTx + 1, run := .fire .load }) ∨
    (∃ pc pc', s.run = .fire pc ∧ (s.txEvent.fire true pc).2 = some pc' ∧
      t = { s with txEvent := (s.txEvent.fire true pc).1, run := .fire pc' }) ∨
    (∃ pc, s.run = .fire pc ∧ (s.txEvent.fire true pc).2 = none ∧
      t = { s with txEvent := (s.txEvent.fire true pc).1, run := .makeUnique }) := by
  rw [runImpl] at h
  split at h
  · rename_i hrun
    exact Or.inl ⟨hrun, (Option.some.inj h).symm⟩
  · rename_i pc hrun
    obtain ⟨⟨q, pc'⟩, hq, ht⟩ := Option.map_eq_some_iff.mp h
    cases pc' with
    | some pc' => exact Or.inr (Or.inl ⟨pc, q, pc', hrun, hq, ht.symm⟩)
    | none => exact Or.inr (Or.inr (Or.inl ⟨pc, q, hrun, hq, ht.symm⟩))
  · rename_i hrun
    exact Or.inr (Or.inr (Or.inr (Or.inl ⟨hrun, (Option.some.inj h).symm⟩)))
  · rename_i pc hrun
    refine Or.inr (Or.inr (Or.inr (Or.inr ?_)))
    have ht := (Option.some.inj h).symm
    cases hpc : (s.txEvent.fire true pc).2 with
    | some pc' =>
      rw [hpc] at ht
      exact Or.inl ⟨pc, pc', hrun, hpc, ht⟩
    | none =>
      rw [hpc] at ht
      exact Or.inr ⟨pc, hrun, hpc, ht⟩

lemma pollImpl_cases {s t : Sender tx} (h : s.pollImpl = some t) :
    (s.poll = .wait ∧ s.txEvent.Readable ∧
      t = { s with poll := .swap (tx.callSwap s.txQueue) [] }) ∨
    (∃ pc es q es' pc', s.poll = .swap pc es ∧
      tx.swap s.txQueue pc es = some (q, es', some pc') ∧
      t = { s with txQueue := q, poll := .swap pc' es' }) ∨
    (∃ pc es q es', s.poll = .swap pc es ∧ tx.swap s.txQueue pc es = some (q, es', none) ∧
      t = { s with txQueue := q, poll := .consume .load es' }) ∨
    (∃ pc es ev pc', s.poll = .consume pc es ∧ s.txEvent.consume true pc = some (ev, some pc') ∧
      t = { s with txEvent := ev, poll := .consume pc' es }) ∨
    (∃ pc es ev, s.poll = .consume pc es ∧ s.txEvent.consume true pc = some (ev, none) ∧
      t = { s with txEvent := ev, poll := .execute es }) ∨
    (s.poll = .execute [] ∧ t = { s with poll := .wait }) ∨
    (∃ e es, s.poll = .execute (e :: es) ∧
      t = { s with eventRx := s.eventRx + 1, poll := .execute es }) := by
  rw [pollImpl] at h
  split at h
  · rename_i hpoll
    split at h
    · rename_i hread
      exact Or.inl ⟨hpoll, hread, (Option.some.inj h).symm⟩
    · cases h
  · rename_i pc es hpoll
    obtain ⟨⟨q, es', pc'⟩, hq, ht⟩ := Option.map_eq_some_iff.mp h
    cases pc' with
    | some pc' => exact Or.inr (Or.inl ⟨pc, es, q, es', pc', hpoll, hq, ht.symm⟩)
    | none => exact Or.inr (Or.inr (Or.inl ⟨pc, es, q, es', hpoll, hq, ht.symm⟩))
  · rename_i pc es hpoll
    obtain ⟨⟨ev, pc'⟩, hc, ht⟩ := Option.map_eq_some_iff.mp h
    refine Or.inr (Or.inr (Or.inr ?_))
    cases pc' with
    | some pc' => exact Or.inl ⟨pc, es, ev, pc', hpoll, hc, ht.symm⟩
    | none => exact Or.inr (Or.inl ⟨pc, es, ev, hpoll, hc, ht.symm⟩)
  · rename_i hpoll
    exact Or.inr (Or.inr (Or.inr (Or.inr (Or.inr (Or.inl
      ⟨hpoll, (Option.some.inj h).symm⟩)))))
  · rename_i e es hpoll
    exact Or.inr (Or.inr (Or.inr (Or.inr (Or.inr (Or.inr
      ⟨e, es, hpoll, (Option.some.inj h).symm⟩)))))

end Sender

end EventManager.App6
