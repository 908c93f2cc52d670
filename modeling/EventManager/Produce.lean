import EventManager.Lib.Drain

/-!
# One call of Produce

`Produce` of app11 and of app12 tests the queue again after every `pop`, and meanwhile the
thread of the manager goes on to fill it.  What the two programs have in common is a
`Producer`: the steps of `_runImpl` and those of `Produce`.  `Producer.call` is the machine of
one call and of the manager's thread, from any state of the manager; its loop is a drain when
every step shows no more than it may (`Producer.simulates_drain`).
-/

namespace EventManager

open Steps

/-- The class of a manager with state `μ`: its `_runImpl`, whose steps have an input in `ω`, and
its `Produce`, whose steps are `π`. -/
structure Producer (μ π ω α : Type) where
  /-- One step of `_runImpl`. -/
  runImpl : μ → ω → μ
  /-- One step of `Produce`: where it goes on, or the list that it returns. -/
  produce : μ → π → Option (μ × (π ⊕ List α))
  /-- The step that `Produce` begins with. -/
  enter : π
  /-- Where the loop of `Produce` is.  Before the loop it is about to be tested. -/
  phase : π → Drain.Phase
  /-- The list `events` so far. -/
  events : π → List α
  /-- `txQueue`, oldest event first. -/
  txQueue : μ → List α
  /-- The events that were put into the queue, in order. -/
  emplaced : μ → List α

/-- A manager, and one call of its `Produce`. -/
structure ProduceCall (μ π α : Type) where
  /-- The manager. -/
  manager : μ
  /-- The step that `Produce` takes next, or the list that it has returned. -/
  produce : π ⊕ List α
  /-- The iterations of its loop that have begun. -/
  iterations : ℕ
deriving DecidableEq, Repr

/-- The steps of the two threads. -/
inductive ProduceCall.Action (ω : Type)
  | run (input : ω)
  | produce
deriving DecidableEq, Repr

namespace Producer

variable {μ π ω α : Type} (P : Producer μ π ω α)

/-- The call begins. -/
def start (m : μ) : ProduceCall μ π α := ⟨m, .inl P.enter, 0⟩

/-- The iterations that a step to `r` begins. -/
def begun : π ⊕ List α → ℕ
  | .inl pc => if P.phase pc = .take then 1 else 0
  | .inr _ => 0

/-- The effect of a step. -/
def next (s : ProduceCall μ π α) : ProduceCall.Action ω → Option (ProduceCall μ π α)
  | .run input => some { s with manager := P.runImpl s.manager input }
  | .produce =>
    match s.produce with
    | .inl pc => (P.produce s.manager pc).map fun p => ⟨p.1, p.2, s.iterations + P.begun p.2⟩
    | .inr _ => none

/-- One call of `Produce`, and the thread of the manager `m`. -/
def call (m : μ) : Machine (ProduceCall μ π α) (ProduceCall.Action ω) where
  init s := s = P.start m
  next := P.next

/-- What the call shows of its loop. -/
def look (s : ProduceCall μ π α) : Drain.Look α where
  phase := s.produce.elim P.phase fun _ => .done
  slots := P.txQueue s.manager
  taken := s.produce.elim P.events id
  iterations := s.iterations
  log := P.emplaced s.manager

/-- A step of the manager's thread puts at most one event into the queue, and a step of
`Produce` is a step of the loop, or none. -/
structure Drains : Prop where
  phase_enter : P.phase P.enter = .test
  events_enter : P.events P.enter = []
  runImpl : ∀ m input,
    P.txQueue (P.runImpl m input) = P.txQueue m ∧
      P.emplaced (P.runImpl m input) = P.emplaced m ∨
    ∃ a, P.txQueue (P.runImpl m input) = P.txQueue m ++ [a] ∧
      P.emplaced (P.runImpl m input) = P.emplaced m ++ [a]
  produce : ∀ m pc m' r k, P.produce m pc = some (m', r) →
    (P.look ⟨m, .inl pc, k⟩).Step (P.look ⟨m', r, k + P.begun r⟩)

variable {P} {m : μ} {s t : ProduceCall μ π α}

lemma Drains.look_run (h : P.Drains) (s : ProduceCall μ π α) (input : ω) :
    (P.look s).Step (P.look { s with manager := P.runImpl s.manager input }) := by
  simp only [look]
  rcases h.runImpl s.manager input with ⟨hqueue, hlog⟩ | ⟨a, hqueue, hlog⟩
  · rw [hqueue, hlog]
    exact .stay
  · rw [hqueue, hlog]
    exact .push a

lemma Drains.look_step (h : P.Drains) {a : ProduceCall.Action ω}
    (ha : (P.call m).next s a = some t) : (P.look s).Step (P.look t) := by
  cases a with
  | run input =>
    obtain rfl := Option.some.inj ha
    exact h.look_run s input
  | produce =>
    obtain ⟨m₁, r, k⟩ := s
    cases r with
    | inl pc =>
      obtain ⟨⟨m₂, r'⟩, hp, rfl⟩ := Option.map_eq_some_iff.mp ha
      exact h.produce m₁ pc m₂ r' k hp
    | inr es => cases ha

/-- The loop of `Produce` is a drain of the queue. -/
theorem Drains.simulates_drain (h : P.Drains) (m : μ) :
    Simulation (P.call m) (Drain.machine (P.txQueue m))
      fun s d => Drain.View (P.emplaced m) (P.look s) d := by
  refine Drain.simulation ?_ fun _ _ _ ha => h.look_step ha
  rintro s rfl
  simp only [look, start, Sum.elim_inl, h.phase_enter, h.events_enter]

/-- What one call owes, on a queue of at most `capacity` events. -/
theorem Drains.iterations_le (h : P.Drains) {capacity : ℕ}
    (hm : (P.txQueue m).length ≤ capacity) (hs : (P.call m).Reachable s) :
    ∃ emplaced, P.emplaced s.manager = P.emplaced m ++ emplaced ∧
      s.iterations ≤ (P.txQueue m).length + emplaced.length ∧
      s.iterations ≤ capacity + emplaced.length ∧
      ∀ events, s.produce = .inr events →
        events.length = s.iterations ∧ events <+: P.txQueue m ++ emplaced := by
  obtain ⟨emplaced, hlog, hiter, hlen, hpre⟩ := Drain.reachable_accounted (h.simulates_drain m) hs
  refine ⟨emplaced, hlog, hiter, hiter.trans (by omega), fun events hevents => ?_⟩
  rw [look, hevents] at hlen hpre
  exact ⟨hlen rfl, hpre⟩

/-- A call whose loop goes round once for every event that a manager at the right pace puts in
returns any number of events. -/
lemma exists_returned (loop : List α → π) (Paced : μ → Prop)
    (hstart : ∃ m' k, Paced m' ∧ (P.call m).Reachable ⟨m', .inl (loop []), k⟩)
    (hround : ∀ m' es k, Paced m' → ∃ actions m'' a, Paced m'' ∧
      (P.call m).exec ⟨m', .inl (loop es), k⟩ actions =
        some ⟨m'', .inl (loop (es ++ [a])), k + 1⟩)
    (hreturn : ∀ m' es, Paced m' → P.produce m' (loop es) = some (m', .inr es)) (n : ℕ) :
    ∃ s es, (P.call m).Reachable s ∧ s.produce = .inr es ∧ es.length = n := by
  have hrounds : ∀ n, ∃ s, (P.call m).Reachable s ∧
      ∃ m' es k, s = ⟨m', .inl (loop es), k⟩ ∧ Paced m' ∧ es.length = n := by
    refine Machine.exists_reachable_rounds ?_ ?_
    · obtain ⟨m', k, hpaced, hs⟩ := hstart
      exact ⟨_, hs, m', [], k, rfl, hpaced, rfl⟩
    · rintro n s hs ⟨m', es, k, rfl, hpaced, rfl⟩
      obtain ⟨actions, m'', a, hpaced', hexec⟩ := hround m' es k hpaced
      exact ⟨_, hs.exec hexec, m'', es ++ [a], k + 1, rfl, hpaced', by simp⟩
  obtain ⟨s, hs, m', es, k, rfl, hpaced, hlen⟩ := hrounds n
  have hnext : (P.call m).next ⟨m', .inl (loop es), k⟩ .produce = some ⟨m', .inr es, k⟩ := by
    simp [call, next, hreturn m' es hpaced, begun]
  exact ⟨_, es, hs.next hnext, rfl, hlen⟩

end Producer

end EventManager
