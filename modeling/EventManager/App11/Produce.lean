import EventManager.App11.Manager
import EventManager.App12.Produce

/-!
# One call of Produce in app11

`Produce` of app11 is that of app12: its loop is a drain, too (`producer_drains`).  So in both
programs one call makes at most one iteration for each event that was queued at the start, and
one for each event that the manager puts in meanwhile (`produce_iterations_le`).  The capacity
of the queue does not bound their number: as long as the manager keeps pace the call goes on
(`produce_unbounded`).
-/

namespace EventManager

open Steps

namespace App11

/-- The class of the manager; the input of `_runImpl` is its random number. -/
def producer (capacity : ℕ) : Producer ManagerA ProducePc ℤ UPtr where
  runImpl m data := m.runImpl capacity data
  produce := ManagerA.produce
  enter := .consume .load
  phase
    | .consume _ => .test
    | .empty _ => .test
    | .front _ => .take
    | .pop _ => .free
  events := ProducePc.events
  txQueue := ManagerA.txQueue
  emplaced := ManagerA.emplaced

/-- A manager, and one call of its `Produce`. -/
abbrev ProduceCall := EventManager.ProduceCall ManagerA ProducePc UPtr

/-- One call of `Produce`, and the thread of the manager `m`. -/
def produceCall (capacity : ℕ) (m : ManagerA) : Machine ProduceCall (ProduceCall.Action ℤ) :=
  (producer capacity).call m

variable {capacity : ℕ}

lemma look_produce {m m' : ManagerA} {pc : ProducePc} {r : ProducePc ⊕ List UPtr} {k : ℕ}
    (h : m.produce pc = some (m', r)) :
    ((producer capacity).look ⟨m, .inl pc, k⟩).Step
      ((producer capacity).look ⟨m', r, k + (producer capacity).begun r⟩) := by
  rcases ManagerA.produce_cases h with
    ⟨cpc, ev', pc', rfl, rfl, rfl, ⟨c, rfl⟩ | rfl⟩ | ⟨es, rfl, hq, rfl, rfl⟩ |
    ⟨es, rfl, hq, rfl, rfl⟩ | ⟨es, e, q, rfl, hq, rfl, rfl⟩ | ⟨es, e, q, rfl, hq, rfl, rfl⟩
  · exact .stay
  · exact .stay
  · exact .finish rfl hq
  · exact .begin rfl hq
  · exact .take e none q rfl hq
  · exact .free e q rfl hq

lemma producer_drains : (producer capacity).Drains where
  phase_enter := rfl
  events_enter := rfl
  runImpl m data := by
    simp only [producer, ManagerA.runImpl]
    split
    · exact Or.inl ⟨rfl, rfl⟩
    · split
      · exact Or.inr ⟨_, rfl, rfl⟩
      · exact Or.inl ⟨rfl, rfl⟩
    all_goals exact Or.inl ⟨rfl, rfl⟩
  produce _ _ _ _ _ h := look_produce h

namespace ManagerA

/-- The manager has fired, and has nothing to do before its next event. -/
structure Paced (m : ManagerA) : Prop where
  fired : m.txEvent.fired = true
  txQueue : m.txQueue = []
  pc : m.pc = .makeUnique

lemma Paced.round (hcap : 0 < capacity) {m₀ m : ManagerA} {es : List UPtr} {k : ℕ}
    (h : m.Paced) : ∃ actions m' a, m'.Paced ∧
      (produceCall capacity m₀).exec ⟨m, .inl (.empty es), k⟩ actions =
        some ⟨m', .inl (.empty (es ++ [a])), k + 1⟩ := by
  obtain ⟨ev, queue, pc, tx, dropped, log⟩ := m
  obtain ⟨hfired, hqueue, hpc⟩ := h
  simp only at hfired hqueue hpc
  subst hqueue hpc
  -- the flag is set, so that `Fire` ends with its load
  refine ⟨[.run 0, .run 0, .run 0, .run 0, .produce, .produce, .produce],
    ⟨ev, [], .makeUnique, tx + 1, dropped, log ++ [some (.eventA 0)]⟩, some (.eventA 0),
    ⟨hfired, rfl, rfl⟩, ?_⟩
  simp [Machine.exec, produceCall, Producer.call, Producer.next, Producer.begun, producer,
    runImpl, produce, hcap, PipedEvent.fire, hfired]

end ManagerA

/-- However small the queue is, one call of `Produce` can return any number of events, although
it starts on an empty queue. -/
lemma exists_returned (hcap : 0 < capacity) (n : ℕ) :
    ∃ (m : ManagerA) (s : ProduceCall) (es : List UPtr), m.txQueue = [] ∧
      (produceCall capacity m).Reachable s ∧ s.produce = .inr es ∧ es.length = n := by
  -- the manager is in its first `Fire`, of an event that was taken out before
  let m : ManagerA := ⟨.create (3, 4), [], .fire .store, 1, 0, [some (.eventA 0)]⟩
  have hstart : (produceCall capacity m).exec ⟨m, .inl (.consume .load), 0⟩
      [.produce, .run 0, .run 0] =
      some ⟨⟨⟨(3, 4), true, 1⟩, [], .makeUnique, 1, 0, [some (.eventA 0)]⟩,
        .inl (.empty []), 0⟩ := rfl
  obtain ⟨s, es, hs⟩ := Producer.exists_returned (P := producer capacity) (m := m)
    ProducePc.empty ManagerA.Paced
    ⟨_, 0, ⟨rfl, rfl, rfl⟩, Machine.Reachable.exec (.of_init rfl) hstart⟩
    (fun _ _ _ h => h.round hcap) (fun _ _ h => by simp [producer, ManagerA.produce, h.txQueue]) n
  exact ⟨m, s, es, rfl, hs⟩

lemma exists_refilled :
    ∃ s, (produceCall 1 (.create (3, 4))).Reachable s ∧ s.iterations = 2 ∧
      s.produce.isRight := by
  obtain ⟨s, hs, h⟩ : ∃ s, (produceCall 1 (.create (3, 4))).exec
      ⟨.create (3, 4), .inl (.consume .load), 0⟩
      [.run 7, .run 7, .produce, .produce, .produce, .produce,
        .run 7, .run 7, .run 7, .run 7, .run 8, .run 8,
        .produce, .produce, .produce, .produce] = some s ∧
      s.iterations = 2 ∧ s.produce.isRight := ⟨_, rfl, rfl, rfl⟩
  exact ⟨s, Machine.Reachable.exec (.of_init rfl) hs, h⟩

end App11

/-- **One call of `Produce`.**  In app11 and in app12, whatever the manager's thread does
meanwhile: the loop makes at most one iteration for each event that the queue, of `capacity`
events at most, held at the start, and for each event `emplaced` that the manager has put in
since.  The call returns as many events as it has made iterations, the oldest ones, in order. -/
theorem produce_iterations_le :
    (∀ (capacity : ℕ) (m : App11.ManagerA) (s : App11.ProduceCall),
      m.txQueue.length ≤ capacity → (App11.produceCall capacity m).Reachable s →
      ∃ emplaced, s.manager.emplaced = m.emplaced ++ emplaced ∧
        s.iterations ≤ m.txQueue.length + emplaced.length ∧
        s.iterations ≤ capacity + emplaced.length ∧
        ∀ events, s.produce = .inr events →
          events.length = s.iterations ∧ events <+: m.txQueue ++ emplaced) ∧
    (∀ (capacity : ℕ) (event : ℕ → App12.Event) (m : App12.Manager) (s : App12.ProduceCall),
      m.txQueue.length ≤ capacity → (App12.produceCall capacity event m).Reachable s →
      ∃ emplaced, s.manager.emplaced = m.emplaced ++ emplaced ∧
        s.iterations ≤ m.txQueue.length + emplaced.length ∧
        s.iterations ≤ capacity + emplaced.length ∧
        ∀ events, s.produce = .inr events →
          events.length = s.iterations ∧ events <+: m.txQueue ++ emplaced) := by
  constructor
  · intro capacity m s hm hs
    exact App11.producer_drains.iterations_le hm hs
  · intro capacity event m s hm hs
    exact App12.producer_drains.iterations_le hm hs

/-- Two calls on an empty queue for one event, in which the manager puts a second event in
before the queue is tested again. -/
theorem produce_iterations_le_refilled :
    (∃ s, (App11.produceCall 1 (.create (3, 4))).Reachable s ∧ s.iterations = 2 ∧
      s.iterations ≤ 1 + s.manager.emplaced.length ∧ s.produce.isRight) ∧
    ∃ s, (App12.produceCall 1 App12.managerAEvent (.create (3, 4))).Reachable s ∧
      s.iterations = 2 ∧ s.iterations ≤ 1 + s.manager.emplaced.length ∧ s.produce.isRight := by
  obtain ⟨s, hs, hiter, hret⟩ := App11.exists_refilled
  obtain ⟨t, ht, hiter', hret'⟩ := App12.exists_refilled
  obtain ⟨emplaced, hlog, -, hle, -⟩ :=
    produce_iterations_le.1 1 (.create (3, 4)) s (by decide) hs
  obtain ⟨emplaced', hlog', -, hle', -⟩ := produce_iterations_le.2 1 App12.managerAEvent
    (.create (3, 4)) t (by decide) ht
  have hemplaced : s.manager.emplaced = emplaced := hlog
  have hemplaced' : t.manager.emplaced = emplaced' := hlog'
  exact ⟨⟨s, hs, hiter, by rwa [hemplaced], hret⟩, t, ht, hiter', by rwa [hemplaced'], hret'⟩

/-- The capacity is no bound: with a queue for one event a call makes two iterations, in app11
and in app12. -/
theorem produce_exceeds_capacity :
    (¬ ∀ (capacity : ℕ) (m : App11.ManagerA) (s : App11.ProduceCall),
      m.txQueue.length ≤ capacity → (App11.produceCall capacity m).Reachable s →
      s.iterations ≤ capacity ∧
        ∀ events, s.produce = .inr events → events.length ≤ capacity) ∧
    ¬ ∀ (capacity : ℕ) (event : ℕ → App12.Event) (m : App12.Manager) (s : App12.ProduceCall),
      m.txQueue.length ≤ capacity → (App12.produceCall capacity event m).Reachable s →
      s.iterations ≤ capacity ∧
        ∀ events, s.produce = .inr events → events.length ≤ capacity := by
  constructor
  · intro hall
    obtain ⟨s, hs, hiter, -⟩ := App11.exists_refilled
    have hle := (hall 1 _ s (by decide) hs).1
    omega
  · intro hall
    obtain ⟨s, hs, hiter, -⟩ := App12.exists_refilled
    have hle := (hall 1 _ _ s (by decide) hs).1
    omega

/-- **No bound from the capacity.**  In both programs, however small the queue is, one call on
an empty queue can return any number of events: as long as the manager keeps pace, the call
goes on. -/
theorem produce_unbounded {capacity : ℕ} (hcap : 0 < capacity) (n : ℕ) :
    (∃ (m : App11.ManagerA) (s : App11.ProduceCall) (es : List UPtr), m.txQueue = [] ∧
      (App11.produceCall capacity m).Reachable s ∧ s.produce = .inr es ∧ es.length = n) ∧
    ∀ event : ℕ → App12.Event, ∃ (m : App12.Manager) (s : App12.ProduceCall)
      (es : List App12.Event), m.txQueue = [] ∧
      (App12.produceCall capacity event m).Reachable s ∧ s.produce = .inr es ∧ es.length = n :=
  ⟨App11.exists_returned hcap n,
    fun event => App12.exists_returned hcap event n⟩

end EventManager
