import EventManager.Event
import EventManager.PipedEvent.Basic

/-!
# The managers of main

The managers of `main.cpp` keep `txQueue` behind `txMutex`.  `ManagerA` and `ManagerB` put
events into it in `_runImpl`, `ManagerC` in `Consume`; `Produce` of all three swaps the queue
out and consumes the signal, with the mutex held.  The functions here take one step of a
call.  A step that locks a mutex which is held waits: there is no step.
-/

namespace EventManager.Main

/-- The three managers. -/
inductive Name
  | managerA
  | managerB
  | managerC
deriving DecidableEq, Repr

/-- The members of a manager. -/
structure Manager where
  /-- `txEvent`. -/
  txEvent : PipedEvent
  /-- `txQueue`, oldest event first. -/
  txQueue : List Event
  /-- `txMutex` is held. -/
  locked : Bool
  /-- The counter behind `_eventRxCounter`. -/
  eventRx : ℕ
  /-- The counter behind `_eventTxCounter`. -/
  eventTx : ℕ
  /-- The counter behind `_eventTxDroppedCounter`. -/
  eventTxDropped : ℕ
deriving DecidableEq, Repr

/-- The step that `_runImpl` of `ManagerA` takes next. -/
inductive RunPc
  /-- `txQueue.size() > MAX_QUEUE_SIZE`, outside the lock. -/
  | checkSize
  | incTxDropped
  | lock
  | emplace
  | incTx
  | fire (pc : FirePc)
  /-- The destructor of the `lock_guard`. -/
  | unlock
deriving DecidableEq, Repr

/-- The step that `Produce` takes next, and the list `events`. -/
inductive ProducePc
  | lock
  | swap
  | consume (pc : ConsumePc) (events : List Event)
  /-- The destructor of the `lock_guard`; `Produce` returns. -/
  | unlock (events : List Event)
deriving DecidableEq, Repr

/-- The step that `Consume` of `ManagerC` takes next. -/
inductive ReceivePc
  | lock
  | emplace
  | incRx
  | incTx
  | fire (pc : FirePc)
  /-- The destructor of the `lock_guard`. -/
  | unlock
deriving DecidableEq, Repr

namespace Manager

/-- A manager whose pipe has the descriptors `fds`. -/
def create (fds : ℤ × ℤ) : Manager := ⟨.create fds, [], false, 0, 0, 0⟩

/-- One step of `_runImpl`, with the event that it makes. -/
def runImpl (maxQueueSize : ℕ) (m : Manager) (event : Event) :
    RunPc → Option (Manager × RunPc)
  | .checkSize =>
    some (m, if maxQueueSize < m.txQueue.length then .incTxDropped else .lock)
  | .incTxDropped => some ({ m with eventTxDropped := m.eventTxDropped + 1 }, .checkSize)
  | .lock => if m.locked then none else some ({ m with locked := true }, .emplace)
  | .emplace => some ({ m with txQueue := m.txQueue ++ [event] }, .incTx)
  | .incTx => some ({ m with eventTx := m.eventTx + 1 }, .fire .load)
  | .fire pc =>
    some ({ m with txEvent := (m.txEvent.fire true pc).1 },
      match (m.txEvent.fire true pc).2 with
      | some pc' => .fire pc'
      | none => .unlock)
  | .unlock => some ({ m with locked := false }, .checkSize)

/-- One step of `Produce`: where it goes on, or the list that it returns. -/
def produce (m : Manager) : ProducePc → Option (Manager × (ProducePc ⊕ List Event))
  | .lock => if m.locked then none else some ({ m with locked := true }, .inl .swap)
  | .swap => some ({ m with txQueue := [] }, .inl (.consume .load m.txQueue))
  | .consume pc events =>
    (m.txEvent.consume true pc).map fun p =>
      ({ m with txEvent := p.1 }, .inl (match p.2 with
        | some pc' => .consume pc' events
        | none => .unlock events))
  | .unlock events => some ({ m with locked := false }, .inr events)

/-- `Consume` of `ManagerA` and of `ManagerB`. -/
def consume (m : Manager) : Manager := { m with eventRx := m.eventRx + 1 }

/-- One step of `Consume` of `ManagerC`, and the step after it. -/
def receive (m : Manager) (event : Event) : ReceivePc → Option (Manager × Option ReceivePc)
  | .lock => if m.locked then none else some ({ m with locked := true }, some .emplace)
  | .emplace => some ({ m with txQueue := m.txQueue ++ [event] }, some .incRx)
  | .incRx => some ({ m with eventRx := m.eventRx + 1 }, some .incTx)
  | .incTx => some ({ m with eventTx := m.eventTx + 1 }, some (.fire .load))
  | .fire pc =>
    some ({ m with txEvent := (m.txEvent.fire true pc).1 },
      match (m.txEvent.fire true pc).2 with
      | some pc' => some (.fire pc')
      | none => some .unlock)
  | .unlock => some ({ m with locked := false }, none)
end Manager

/-- What the event that `_runImpl` has made adds to the log of the queue. -/
def emplaced (event : Event) : RunPc → List Event
  | .emplace => [event]
  | _ => []

/-- What a step of `Consume` of `ManagerC` adds to the log of the queue. -/
def received (event : Event) : ReceivePc → List Event
  | .emplace => [event]
  | _ => []

/-- The list `events` of `Produce` so far. -/
def ProducePc.events : ProducePc → List Event
  | consume _ events => events
  | unlock events => events
  | _ => []

/-- The call of `Consume` of the event that `Produce` is in. -/
def ProducePc.consumePc : ProducePc → Option ConsumePc
  | consume pc _ => some pc
  | _ => none

/-- The call of `Fire` that `Consume` of `ManagerC` is in. -/
def ReceivePc.firePc : ReceivePc → Option FirePc
  | fire pc => some pc
  | _ => none

namespace Manager

/-! ### What the steps do -/

variable {m m' : Manager}

lemma runImpl_cases {maxQueueSize : ℕ} {event : Event} {pc pc' : RunPc}
    (h : m.runImpl maxQueueSize event pc = some (m', pc')) :
    (pc = .checkSize ∧ maxQueueSize < m.txQueue.length ∧ m' = m ∧ pc' = .incTxDropped) ∨
    (pc = .checkSize ∧ m.txQueue.length ≤ maxQueueSize ∧ m' = m ∧ pc' = .lock) ∨
    (pc = .incTxDropped ∧ m' = { m with eventTxDropped := m.eventTxDropped + 1 } ∧
      pc' = .checkSize) ∨
    (pc = .lock ∧ m' = { m with locked := true } ∧ pc' = .emplace) ∨
    (pc = .emplace ∧ m' = { m with txQueue := m.txQueue ++ [event] } ∧ pc' = .incTx) ∨
    (pc = .incTx ∧ m' = { m with eventTx := m.eventTx + 1 } ∧ pc' = .fire .load) ∨
    (∃ fpc, pc = .fire fpc ∧ m' = { m with txEvent := (m.txEvent.fire true fpc).1 } ∧
      ((∃ fpc', pc' = .fire fpc') ∨ pc' = .unlock)) ∨
    (pc = .unlock ∧ m' = { m with locked := false } ∧ pc' = .checkSize) := by
  cases pc with
  | checkSize =>
    simp only [runImpl, Option.some.injEq, Prod.mk.injEq] at h
    obtain ⟨rfl, hpc⟩ := h
    by_cases hlt : maxQueueSize < m.txQueue.length
    · rw [if_pos hlt] at hpc
      exact Or.inl ⟨rfl, hlt, rfl, hpc.symm⟩
    · rw [if_neg hlt] at hpc
      exact Or.inr (Or.inl ⟨rfl, by omega, rfl, hpc.symm⟩)
  | incTxDropped =>
    cases h
    exact Or.inr (Or.inr (Or.inl ⟨rfl, rfl, rfl⟩))
  | lock =>
    simp only [runImpl] at h
    split at h
    · cases h
    · cases h
      exact Or.inr (Or.inr (Or.inr (Or.inl ⟨rfl, rfl, rfl⟩)))
  | emplace =>
    cases h
    exact Or.inr (Or.inr (Or.inr (Or.inr (Or.inl ⟨rfl, rfl, rfl⟩))))
  | incTx =>
    cases h
    exact Or.inr (Or.inr (Or.inr (Or.inr (Or.inr (Or.inl ⟨rfl, rfl, rfl⟩)))))
  | fire fpc =>
    simp only [runImpl, Option.some.injEq, Prod.mk.injEq] at h
    obtain ⟨rfl, hpc⟩ := h
    refine Or.inr (Or.inr (Or.inr (Or.inr (Or.inr (Or.inr (Or.inl ⟨fpc, rfl, rfl, ?_⟩))))))
    split at hpc
    · exact Or.inl ⟨_, hpc.symm⟩
    · exact Or.inr hpc.symm
  | unlock =>
    cases h
    exact Or.inr (Or.inr (Or.inr (Or.inr (Or.inr (Or.inr (Or.inr ⟨rfl, rfl, rfl⟩))))))

lemma produce_cases {pc : ProducePc} {r : ProducePc ⊕ List Event}
    (h : m.produce pc = some (m', r)) :
    (pc = .lock ∧ m' = { m with locked := true } ∧ r = .inl .swap) ∨
    (pc = .swap ∧ m' = { m with txQueue := [] } ∧ r = .inl (.consume .load m.txQueue)) ∨
    (∃ cpc es ev cpc', pc = .consume cpc es ∧
      m.txEvent.consume true cpc = some (ev, cpc') ∧ m' = { m with txEvent := ev } ∧
      ((∃ c, cpc' = some c ∧ r = .inl (.consume c es)) ∨
        (cpc' = none ∧ r = .inl (.unlock es)))) ∨
    (∃ es, pc = .unlock es ∧ m' = { m with locked := false } ∧ r = .inr es) := by
  cases pc with
  | lock =>
    simp only [produce] at h
    split at h
    · cases h
    · cases h
      exact Or.inl ⟨rfl, rfl, rfl⟩
  | swap =>
    cases h
    exact Or.inr (Or.inl ⟨rfl, rfl, rfl⟩)
  | consume cpc es =>
    obtain ⟨⟨ev, cpc'⟩, hc, hp⟩ := Option.map_eq_some_iff.mp h
    simp only [Prod.mk.injEq] at hp
    obtain ⟨rfl, hr⟩ := hp
    refine Or.inr (Or.inr (Or.inl ⟨cpc, es, ev, cpc', rfl, hc, rfl, ?_⟩))
    cases cpc' with
    | some c => exact Or.inl ⟨c, rfl, hr.symm⟩
    | none => exact Or.inr ⟨rfl, hr.symm⟩
  | unlock es =>
    cases h
    exact Or.inr (Or.inr (Or.inr ⟨es, rfl, rfl, rfl⟩))

lemma receive_cases {event : Event} {pc : ReceivePc} {pc' : Option ReceivePc}
    (h : m.receive event pc = some (m', pc')) :
    (pc = .lock ∧ m' = { m with locked := true } ∧ pc' = some .emplace) ∨
    (pc = .emplace ∧ m' = { m with txQueue := m.txQueue ++ [event] } ∧
      pc' = some .incRx) ∨
    (pc = .incRx ∧ m' = { m with eventRx := m.eventRx + 1 } ∧ pc' = some .incTx) ∨
    (pc = .incTx ∧ m' = { m with eventTx := m.eventTx + 1 } ∧ pc' = some (.fire .load)) ∨
    (∃ fpc, pc = .fire fpc ∧ m' = { m with txEvent := (m.txEvent.fire true fpc).1 } ∧
      ((∃ fpc', (m.txEvent.fire true fpc).2 = some fpc' ∧ pc' = some (.fire fpc')) ∨
        ((m.txEvent.fire true fpc).2 = none ∧ pc' = some .unlock))) ∨
    (pc = .unlock ∧ m' = { m with locked := false } ∧ pc' = none) := by
  cases pc with
  | lock =>
    simp only [receive] at h
    split at h
    · cases h
    · cases h
      exact Or.inl ⟨rfl, rfl, rfl⟩
  | emplace =>
    cases h
    exact Or.inr (Or.inl ⟨rfl, rfl, rfl⟩)
  | incRx =>
    cases h
    exact Or.inr (Or.inr (Or.inl ⟨rfl, rfl, rfl⟩))
  | incTx =>
    cases h
    exact Or.inr (Or.inr (Or.inr (Or.inl ⟨rfl, rfl, rfl⟩)))
  | fire fpc =>
    simp only [receive, Option.some.injEq, Prod.mk.injEq] at h
    obtain ⟨rfl, hpc⟩ := h
    refine Or.inr (Or.inr (Or.inr (Or.inr (Or.inl ⟨fpc, rfl, rfl, ?_⟩))))
    split at hpc
    · rename_i fpc' hf
      exact Or.inl ⟨fpc', hf, hpc.symm⟩
    · rename_i hf
      exact Or.inr ⟨hf, hpc.symm⟩
  | unlock =>
    cases h
    exact Or.inr (Or.inr (Or.inr (Or.inr (Or.inr ⟨rfl, rfl, rfl⟩))))

lemma runImpl_txQueue {maxQueueSize : ℕ} {event : Event} {pc pc' : RunPc}
    (h : m.runImpl maxQueueSize event pc = some (m', pc')) :
    m'.txQueue = m.txQueue ++ emplaced event pc := by
  rcases runImpl_cases h with ⟨rfl, -, rfl, -⟩ | ⟨rfl, -, rfl, -⟩ | ⟨rfl, rfl, -⟩ |
    ⟨rfl, rfl, -⟩ | ⟨rfl, rfl, -⟩ | ⟨rfl, rfl, -⟩ | ⟨fpc, rfl, rfl, -⟩ | ⟨rfl, rfl, -⟩ <;>
    simp [emplaced]

/-- `Produce` takes the whole queue: what it has collected, followed by what it has not, does
not change. -/
lemma produce_txQueue {pc : ProducePc} {r : ProducePc ⊕ List Event}
    (h : m.produce pc = some (m', r)) :
    r.elim ProducePc.events id ++ m'.txQueue = pc.events ++ m.txQueue := by
  rcases produce_cases h with ⟨rfl, rfl, rfl⟩ | ⟨rfl, rfl, rfl⟩ |
    ⟨cpc, es, ev, cpc', rfl, -, rfl, ⟨c, -, rfl⟩ | ⟨-, rfl⟩⟩ | ⟨es, rfl, rfl, rfl⟩ <;>
    simp [ProducePc.events]

lemma receive_txQueue {event : Event} {pc : ReceivePc} {pc' : Option ReceivePc}
    (h : m.receive event pc = some (m', pc')) :
    m'.txQueue = m.txQueue ++ received event pc := by
  rcases receive_cases h with ⟨rfl, rfl, -⟩ | ⟨rfl, rfl, -⟩ | ⟨rfl, rfl, -⟩ | ⟨rfl, rfl, -⟩ |
    ⟨fpc, rfl, rfl, -⟩ | ⟨rfl, rfl, -⟩ <;>
    simp [received]

lemma runImpl_fds {maxQueueSize : ℕ} {event : Event} {pc pc' : RunPc}
    (h : m.runImpl maxQueueSize event pc = some (m', pc')) :
    m'.txEvent.fds = m.txEvent.fds := by
  rcases runImpl_cases h with ⟨rfl, -, rfl, -⟩ | ⟨rfl, -, rfl, -⟩ | ⟨rfl, rfl, -⟩ |
    ⟨rfl, rfl, -⟩ | ⟨rfl, rfl, -⟩ | ⟨rfl, rfl, -⟩ | ⟨fpc, rfl, rfl, -⟩ | ⟨rfl, rfl, -⟩ <;>
    simp

lemma produce_fds {pc : ProducePc} {r : ProducePc ⊕ List Event}
    (h : m.produce pc = some (m', r)) : m'.txEvent.fds = m.txEvent.fds := by
  rcases produce_cases h with ⟨rfl, rfl, -⟩ | ⟨rfl, rfl, -⟩ |
    ⟨cpc, es, ev, cpc', rfl, hc, rfl, -⟩ | ⟨es, rfl, rfl, -⟩
  · rfl
  · rfl
  · exact PipedEvent.consume_fds hc
  · rfl

lemma receive_fds {event : Event} {pc : ReceivePc} {pc' : Option ReceivePc}
    (h : m.receive event pc = some (m', pc')) : m'.txEvent.fds = m.txEvent.fds := by
  rcases receive_cases h with ⟨rfl, rfl, -⟩ | ⟨rfl, rfl, -⟩ | ⟨rfl, rfl, -⟩ | ⟨rfl, rfl, -⟩ |
    ⟨fpc, rfl, rfl, -⟩ | ⟨rfl, rfl, -⟩ <;>
    simp

end Manager

end EventManager.Main
