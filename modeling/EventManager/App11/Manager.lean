import EventManager.Event
import EventManager.PipedEvent.Basic

/-!
# The manager of app11

`ManagerA` of `app11.cpp` puts its events into a queue for `MAX_QUEUE_SIZE` of them, counts
the ones that do not fit as dropped, and fires its event for the others.  `Produce` takes the
events out one by one until it finds the queue empty.
-/

namespace EventManager.App11

/-- The step that `_runImpl` takes next.  The loop of the thread starts it again when it
returns. -/
inductive RunPc
  | makeUnique
  | tryEmplace (event : UPtr)
  | incTx
  | fire (pc : FirePc)
  | incTxDropped
deriving DecidableEq, Repr

/-- The manager. -/
structure ManagerA where
  /-- `txEvent`. -/
  txEvent : PipedEvent
  /-- `txQueue`, oldest event first. -/
  txQueue : List UPtr
  /-- Where the thread is in `_runImpl`. -/
  pc : RunPc
  /-- The counter behind `_eventTxCounter`. -/
  eventTx : ℕ
  /-- The counter behind `_eventTxDroppedCounter`. -/
  eventTxDropped : ℕ
  /-- The events that `try_emplace` took, in order. -/
  emplaced : List UPtr
deriving DecidableEq, Repr

/-- The step that `Produce` takes next, and the list `events` so far. -/
inductive ProducePc
  | consume (pc : ConsumePc)
  | empty (events : List UPtr)
  | front (events : List UPtr)
  | pop (events : List UPtr)
deriving DecidableEq, Repr

/-- The list `events` so far. -/
def ProducePc.events : ProducePc → List UPtr
  | consume _ => []
  | empty events => events
  | front events => events
  | pop events => events

namespace ManagerA

/-- The manager before its thread is started. -/
def create (fds : ℤ × ℤ) : ManagerA := ⟨.create fds, [], .makeUnique, 0, 0, []⟩

/-- One step of `_runImpl`, with `data` for the random number and a queue for `capacity`
events. -/
def runImpl (capacity : ℕ) (m : ManagerA) (data : ℤ) : ManagerA :=
  match m.pc with
  | .makeUnique => { m with pc := .tryEmplace (some (.eventA data)) }
  | .tryEmplace event =>
    if m.txQueue.length < capacity then
      { m with
        txQueue := m.txQueue ++ [event]
        emplaced := m.emplaced ++ [event]
        pc := .incTx }
    else { m with pc := .incTxDropped }
  | .incTx => { m with eventTx := m.eventTx + 1, pc := .fire .load }
  | .fire pc =>
    { m with
      txEvent := (m.txEvent.fire true pc).1
      pc := match (m.txEvent.fire true pc).2 with
        | some pc' => .fire pc'
        | none => .makeUnique }
  | .incTxDropped => { m with eventTxDropped := m.eventTxDropped + 1, pc := .makeUnique }

/-- One step of `Produce`: where it goes on, or the list that it returns. -/
def produce (m : ManagerA) : ProducePc → Option (ManagerA × (ProducePc ⊕ List UPtr))
  | .consume pc =>
    (m.txEvent.consume true pc).map fun p =>
      ({ m with txEvent := p.1 }, match p.2 with
        | some pc' => .inl (.consume pc')
        | none => .inl (.empty []))
  | .empty events =>
    if m.txQueue = [] then some (m, .inr events) else some (m, .inl (.front events))
  | .front events =>
    match m.txQueue with
    | [] => none
    -- the slot keeps the moved-from pointer
    | e :: queue => some ({ m with txQueue := none :: queue }, .inl (.pop (events ++ [e])))
  | .pop events =>
    match m.txQueue with
    | [] => none
    | _ :: queue => some ({ m with txQueue := queue }, .inl (.empty events))

lemma produce_cases {m m' : ManagerA} {pc : ProducePc} {r : ProducePc ⊕ List UPtr}
    (h : m.produce pc = some (m', r)) :
    (∃ cpc ev' pc', pc = .consume cpc ∧ m' = { m with txEvent := ev' } ∧ r = .inl pc' ∧
      ((∃ c, pc' = .consume c) ∨ pc' = .empty [])) ∨
    (∃ es, pc = .empty es ∧ m.txQueue = [] ∧ m' = m ∧ r = .inr es) ∨
    (∃ es, pc = .empty es ∧ m.txQueue ≠ [] ∧ m' = m ∧ r = .inl (.front es)) ∨
    (∃ es e q, pc = .front es ∧ m.txQueue = e :: q ∧
      m' = { m with txQueue := none :: q } ∧ r = .inl (.pop (es ++ [e]))) ∨
    (∃ es e q, pc = .pop es ∧ m.txQueue = e :: q ∧ m' = { m with txQueue := q } ∧
      r = .inl (.empty es)) := by
  cases pc with
  | consume cpc =>
    obtain ⟨⟨ev', c⟩, -, hp⟩ := Option.map_eq_some_iff.mp h
    cases hp
    cases c with
    | none => exact Or.inl ⟨cpc, ev', _, rfl, rfl, rfl, Or.inr rfl⟩
    | some c => exact Or.inl ⟨cpc, ev', _, rfl, rfl, rfl, Or.inl ⟨c, rfl⟩⟩
  | empty es =>
    simp only [produce] at h
    split at h
    · cases h
      exact Or.inr (Or.inl ⟨es, rfl, ‹_›, rfl, rfl⟩)
    · cases h
      exact Or.inr (Or.inr (Or.inl ⟨es, rfl, ‹_›, rfl, rfl⟩))
  | front es =>
    simp only [produce] at h
    split at h
    · cases h
    · cases h
      exact Or.inr (Or.inr (Or.inr (Or.inl ⟨es, _, _, rfl, ‹_›, rfl, rfl⟩)))
  | pop es =>
    simp only [produce] at h
    split at h
    · cases h
    · cases h
      exact Or.inr (Or.inr (Or.inr (Or.inr ⟨es, _, _, rfl, ‹_›, rfl, rfl⟩)))

end ManagerA

end EventManager.App11
