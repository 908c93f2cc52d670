import EventManager.App12.EventRouter

/-!
# The calls of the router of app12

What `WaitAndRoute` does to the objects behind its weak pointers is a list of calls: `Produce`
on the producers of the ready descriptors, and `Consume` on the consumers of what they
return.  Here the objects are arbitrary, so that two routers can be compared by the calls
that they make.

`AddProducer` writes its entry before it asks `epoll_ctl`, and leaves it there when
`epoll_ctl` fails.  The failed call goes unnoticed by `WaitAndRoute` exactly when the entry
named the same producer before (`addProducer_atomic_iff`).
-/

namespace EventManager.App12

/-- A call that the router makes. -/
inductive Call (ω : Type)
  | produce (producer : ω)
  | consume (consumer : ω) (event : Event)
deriving DecidableEq

/-- The objects behind weak pointers, as the router sees them; `σ` is their state. -/
structure Objects (ω σ : Type) where
  /-- The objects that can be locked. -/
  alive : σ → ω → Bool
  /-- `GetAutoId`. -/
  autoId : ω → Int32
  /-- What `Produce` returns, and the state after it. -/
  produce : ω → σ → List Event × σ
  /-- The state after `Consume`. -/
  consume : ω → Event → σ → σ

namespace EventRouter

variable {ω σ : Type} (O : Objects ω σ)

/-- The loop over the consumers of `event`.  A loop takes the state of the objects and the
calls so far to those after it. -/
def routeEvent (producer : ω) (event : Event) (consumers : List ω) (s : σ × List (Call ω)) :
    σ × List (Call ω) :=
  consumers.foldl (fun s consumer =>
    if O.alive s.1 consumer ∧ O.autoId consumer ≠ O.autoId producer then
      (O.consume consumer event.clone s.1, s.2 ++ [.consume consumer event.clone])
    else s) s

/-- The loop over the produced events. -/
def routeEvents (r : EventRouter ω) (producer : ω) (events : List Event)
    (s : σ × List (Call ω)) : σ × List (Call ω) :=
  events.foldl (fun s event => routeEvent O producer event (r.consumers event.type) s) s

/-- What is done for a ready descriptor. -/
def routeEntry (r : EventRouter ω) (s : σ × List (Call ω)) (fd : ℤ) : σ × List (Call ω) :=
  match r.producers fd with
  | none => s
  | some producer =>
    if O.alive s.1 producer then
      r.routeEvents O producer (O.produce producer s.1).1
        ((O.produce producer s.1).2, s.2 ++ [.produce producer])
    else s

/-- `WaitAndRoute`, when `epoll_wait` reports the descriptors `ready`. -/
def waitAndRoute (r : EventRouter ω) (s : σ × List (Call ω)) (ready : List ℤ) :
    σ × List (Call ω) :=
  ready.foldl (r.routeEntry O) s

/-- The calls that are made for the ready lists of some calls of `WaitAndRoute`. -/
def calls (r : EventRouter ω) (rounds : List (List ℤ)) (s : σ) : List (Call ω) :=
  (rounds.foldl (r.waitAndRoute O) (s, [])).2

/-! ### The producers that are called -/

variable {O}

lemma produce_mem_routeEvent {producer : ω} {event : Event} {consumers : List ω}
    {s : σ × List (Call ω)} {p : ω} :
    .produce p ∈ (routeEvent O producer event consumers s).2 ↔ .produce p ∈ s.2 := by
  induction consumers generalizing s with
  | nil => rfl
  | cons c cs ih =>
    rw [routeEvent, List.foldl_cons, ← routeEvent, ih]
    split <;> simp

lemma produce_mem_routeEvents {r : EventRouter ω} {producer : ω} {events : List Event}
    {s : σ × List (Call ω)} {p : ω} :
    .produce p ∈ (r.routeEvents O producer events s).2 ↔ .produce p ∈ s.2 := by
  induction events generalizing s with
  | nil => rfl
  | cons e es ih => rw [routeEvents, List.foldl_cons, ← routeEvents, ih, produce_mem_routeEvent]

/-- For a ready descriptor, `Produce` is called on the producer that its entry locks to. -/
lemma produce_mem_routeEntry {r : EventRouter ω} {s : σ × List (Call ω)} {fd : ℤ} {p : ω} :
    .produce p ∈ (r.routeEntry O s fd).2 ↔
      .produce p ∈ s.2 ∨ (r.producers fd = some p ∧ O.alive s.1 p) := by
  cases hp : r.producers fd with
  | none => simp [routeEntry, hp]
  | some q =>
    by_cases hq : O.alive s.1 q
    · simp only [routeEntry, hp, if_pos hq, produce_mem_routeEvents]
      constructor
      · intro h
        rcases List.mem_append.mp h with h | h
        · exact Or.inl h
        · cases List.mem_singleton.mp h
          exact Or.inr ⟨rfl, hq⟩
      · rintro (h | ⟨heq, -⟩)
        · exact List.mem_append_left _ h
        · cases heq
          simp
    · simp only [routeEntry, hp, if_neg hq]
      constructor
      · exact Or.inl
      · rintro (h | ⟨heq, halive⟩)
        · exact h
        · cases heq
          exact absurd halive hq

/-! ### A call of AddProducer that fails -/

/-- The router `r'` is as good as `r`: it has the same entries, makes the same calls on any
objects and for any ready lists, and has kept the producer of `fd`. -/
structure Unchanged (r r' : EventRouter ω) (fd : ℤ) : Prop where
  producers : r'.producers = r.producers
  calls : ∀ (σ : Type) (O : Objects ω σ) (rounds : List (List ℤ)) (s : σ),
    r'.calls O rounds s = r.calls O rounds s
  registered : ∀ p, r.producers fd = some p → r'.producers fd = some p

/-- The objects that are all alive and produce nothing. -/
def silent (ω : Type) : Objects ω Unit where
  alive _ _ := true
  autoId _ := 0
  produce _ _ := ([], ())
  consume _ _ _ := ()

/-- A single ready descriptor shows which producer is behind it. -/
lemma calls_silent (r : EventRouter ω) (fd : ℤ) :
    r.calls (silent ω) [[fd]] () = ((r.producers fd).map Call.produce).toList := by
  cases hp : r.producers fd with
  | none => simp [calls, waitAndRoute, routeEntry, hp]
  | some p => simp [calls, waitAndRoute, routeEntry, hp, silent, routeEvents]

lemma producers_eq_of_calls {r r' : EventRouter ω}
    (h : ∀ rounds, r'.calls (silent ω) rounds () = r.calls (silent ω) rounds ()) :
    r'.producers = r.producers := by
  ext1 fd
  have hfd := h [[fd]]
  rw [calls_silent, calls_silent] at hfd
  cases hp : r.producers fd with
  | none =>
    cases hp' : r'.producers fd with
    | none => rfl
    | some p' => simp [hp, hp'] at hfd
  | some p =>
    cases hp' : r'.producers fd with
    | none => simp [hp, hp'] at hfd
    | some p' =>
      simp only [hp, hp', Option.map_some, Option.toList_some, List.cons.injEq,
        Call.produce.injEq, and_true] at hfd
      rw [hfd]

/-- The router after a call of `AddProducer` in which `epoll_ctl` has failed. -/
def afterFailure (r : EventRouter ω) (fd : ℤ) (producer : ω) : EventRouter ω :=
  (r.addProducer fd producer (-1)).1

lemma afterFailure_producers (r : EventRouter ω) (fd : ℤ) (producer : ω) :
    (r.afterFailure fd producer).producers fd = some producer := by
  simp [afterFailure, addProducer]

lemma afterFailure_of_registered {r : EventRouter ω} {fd : ℤ} {producer : ω}
    (h : r.producers fd = some producer) : r.afterFailure fd producer = r := by
  simp only [afterFailure, addProducer, ← h, Function.update_eq_self]

/-- `WaitAndRoute` notices the failed call unless the entry named the same producer before. -/
theorem calls_afterFailure_iff (r : EventRouter ω) (fd : ℤ) (producer : ω) :
    (∀ rounds, (r.afterFailure fd producer).calls (silent ω) rounds () =
      r.calls (silent ω) rounds ()) ↔ r.producers fd = some producer := by
  constructor
  · intro h
    rw [← producers_eq_of_calls h, afterFailure_producers]
  · intro h rounds
    rw [afterFailure_of_registered h]

/-- A call of `AddProducer` in which `epoll_ctl` fails throws, and it leaves the router as it
was exactly when the entry of the descriptor named the same producer before. -/
theorem addProducer_atomic_iff (r : EventRouter ω) (fd : ℤ) (producer : ω) :
    (r.addProducer fd producer (-1)).2 = true ∧
    (r.Unchanged (r.addProducer fd producer (-1)).1 fd ↔ r.producers fd = some producer) := by
  refine ⟨by simp [addProducer], ?_⟩
  constructor
  · intro h
    rw [← h.producers]
    exact afterFailure_producers r fd producer
  · intro h
    have hsame : (r.addProducer fd producer (-1)).1 = r := afterFailure_of_registered h
    rw [hsame]
    exact ⟨rfl, fun _ _ _ _ => rfl, fun _ hp => hp⟩

/-- `ManagerA` is registered, and displaced when the descriptor is added again and
`epoll_ctl` refuses. -/
theorem not_atomic : ∃ r : EventRouter Name,
    r = (create.addProducer 5 .managerA 0).1 ∧ (r.addProducer 5 .managerB (-1)).2 = true ∧
    ¬ r.Unchanged (r.addProducer 5 .managerB (-1)).1 5 := by
  refine ⟨_, rfl, rfl, fun h => ?_⟩
  have hkept := h.registered .managerA rfl
  cases hkept

end EventRouter

end EventManager.App12
