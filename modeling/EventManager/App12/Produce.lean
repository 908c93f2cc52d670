import EventManager.App12.Manager
import EventManager.Produce

/-!
# One call of Produce in app12

`produceCall` is the machine of one call of `Produce` and of the manager's thread, from any
state of the manager; its loop is a drain (`producer_drains`).
-/

namespace EventManager.App12

open Steps

/-- The class of a manager that makes the event `event k` in its `k`-th call of `_runImpl`. -/
def producer (capacity : ℕ) (event : ℕ → Event) : Producer Manager ProducePc Unit Event where
  runImpl m _ := m.runImpl capacity event
  produce := Manager.produce
  enter := .consume .load
  phase
    | .consume _ => .test
    | .empty _ => .test
    | .front _ => .take
    | .pop _ => .free
  events := ProducePc.events
  txQueue := Manager.txQueue
  emplaced := Manager.emplaced

/-- A manager, and one call of its `Produce`. -/
abbrev ProduceCall := EventManager.ProduceCall Manager ProducePc Event

/-- One call of `Produce`, and the thread of the manager `m`. -/
def produceCall (capacity : ℕ) (event : ℕ → Event) (m : Manager) :
    Machine ProduceCall (ProduceCall.Action Unit) := (producer capacity event).call m

variable {capacity : ℕ} {event : ℕ → Event}

lemma look_produce {m m' : Manager} {pc : ProducePc} {r : ProducePc ⊕ List Event} {k : ℕ}
    (h : m.produce pc = some (m', r)) :
    ((producer capacity event).look ⟨m, .inl pc, k⟩).Step
      ((producer capacity event).look ⟨m', r, k + (producer capacity event).begun r⟩) := by
  rcases Manager.produce_cases h with
    ⟨cpc, ev', cpc', rfl, -, rfl, ⟨c, -, rfl⟩ | ⟨-, rfl⟩⟩ | ⟨es, rfl, hq, rfl, rfl⟩ |
    ⟨es, rfl, hq, rfl, rfl⟩ | ⟨es, e, q, rfl, hq, rfl, rfl⟩ | ⟨es, e, q, rfl, hq, rfl, rfl⟩
  · exact .stay
  · exact .stay
  · exact .finish rfl hq
  · exact .begin rfl hq
  · -- the slot of the moved-from pointer is still in the queue
    have hlook : (producer capacity event).look ⟨m', .inl (.pop (es ++ [e])), k + 0⟩ =
        { (producer capacity event).look ⟨m', .inl (.front es), k⟩ with
          phase := .free, slots := e :: q, taken := es ++ [e] } := by
      rw [← hq]
      rfl
    show Drain.Look.Step _
      ((producer capacity event).look ⟨m', .inl (.pop (es ++ [e])), k + 0⟩)
    rw [hlook]
    exact .take e e q rfl hq
  · exact .free e q rfl hq

lemma producer_drains : (producer capacity event).Drains where
  phase_enter := rfl
  events_enter := rfl
  runImpl m _ := by
    simp only [producer, Manager.runImpl]
    split
    · split
      · exact Or.inr ⟨_, rfl, rfl⟩
      · exact Or.inl ⟨rfl, rfl⟩
    all_goals exact Or.inl ⟨rfl, rfl⟩
  produce _ _ _ _ _ h := look_produce h

namespace Manager

/-- The manager has fired, and has nothing to do before its next event. -/
structure Paced (m : Manager) : Prop where
  fired : m.txEvent.fired = true
  txQueue : m.txQueue = []
  pc : m.pc = .tryEmplace

lemma Paced.round (hcap : 0 < capacity) {m₀ m : Manager} {es : List Event} {k : ℕ}
    (h : m.Paced) : ∃ actions m' a, m'.Paced ∧
      (produceCall capacity event m₀).exec ⟨m, .inl (.empty es), k⟩ actions =
        some ⟨m', .inl (.empty (es ++ [a])), k + 1⟩ := by
  obtain ⟨ev, queue, counter, pc, tx, dropped, log, popped⟩ := m
  obtain ⟨hfired, hqueue, hpc⟩ := h
  simp only at hfired hqueue hpc
  subst hqueue hpc
  -- the flag is set, so that `Fire` ends with its load
  refine ⟨[.run (), .run (), .run (), .produce, .produce, .produce],
    ⟨ev, [], counter + 1, .tryEmplace, tx + 1, dropped, log ++ [event counter],
      popped ++ [event counter]⟩, event counter, ⟨hfired, rfl, rfl⟩, ?_⟩
  simp [Machine.exec, produceCall, Producer.call, Producer.next, Producer.begun, producer,
    runImpl, produce, hcap, PipedEvent.fire, hfired]

end Manager

/-- However small the queue is, one call of `Produce` can return any number of events, although
it starts on an empty queue. -/
lemma exists_returned (hcap : 0 < capacity) (event : ℕ → Event) (n : ℕ) :
    ∃ (m : Manager) (s : ProduceCall) (es : List Event), m.txQueue = [] ∧
      (produceCall capacity event m).Reachable s ∧ s.produce = .inr es ∧ es.length = n := by
  -- the manager is in its first `Fire`, of an event that was taken out before
  let m : Manager := ⟨.create (3, 4), [], 1, .fire .store, 1, 0, [event 0], [event 0]⟩
  have hstart : (produceCall capacity event m).exec ⟨m, .inl (.consume .load), 0⟩
      [.produce, .run (), .run ()] =
      some ⟨⟨⟨(3, 4), true, 1⟩, [], 1, .tryEmplace, 1, 0, [event 0], [event 0]⟩,
        .inl (.empty []), 0⟩ := rfl
  obtain ⟨s, es, hs⟩ := Producer.exists_returned (P := producer capacity event) (m := m)
    ProducePc.empty Manager.Paced
    ⟨_, 0, ⟨rfl, rfl, rfl⟩, Machine.Reachable.exec (.of_init rfl) hstart⟩
    (fun _ _ _ h => h.round hcap) (fun _ _ h => by simp [producer, Manager.produce, h.txQueue]) n
  exact ⟨m, s, es, rfl, hs⟩

lemma exists_refilled :
    ∃ s, (produceCall 1 managerAEvent (.create (3, 4))).Reachable s ∧ s.iterations = 2 ∧
      s.produce.isRight := by
  obtain ⟨s, hs, h⟩ : ∃ s, (produceCall 1 managerAEvent (.create (3, 4))).exec
      ⟨.create (3, 4), .inl (.consume .load), 0⟩
      [.run (), .produce, .produce, .produce, .produce, .run (), .run (), .run (), .run (),
        .run (), .produce, .produce, .produce, .produce] = some s ∧
      s.iterations = 2 ∧ s.produce.isRight := ⟨_, rfl, rfl, rfl⟩
  exact ⟨s, Machine.Reachable.exec (.of_init rfl) hs, h⟩

end EventManager.App12
