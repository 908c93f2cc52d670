import EventManager.App12.Routing

/-!
# The order of registration

`AddConsumer` appends its consumer to the lists of the types that it names, so that two orders
of the same calls give lists in two orders.  What a consumer sees does not depend on them: for
every event of a batch that `Produce` returns it gets one clone for every time that it is
listed for its type, and how often it is listed is a sum over the calls
(`registration_order`).

In the two runs that are compared `Produce` returns the same, and the same objects are alive:
both follow the same `Answers`.
-/

namespace EventManager.App12

variable {ω σ τ : Type}

/-! ### Answers -/

/-- What `Produce` returns, and who is alive; `τ` is the state on which that depends. -/
structure Answers (ω τ : Type) where
  /-- The objects that can be locked. -/
  alive : τ → ω → Bool
  /-- `GetAutoId`. -/
  autoId : ω → Int32
  /-- What `Produce` returns, and the state after it. -/
  produce : ω → τ → List Event × τ

/-- The objects `O` give these answers in states that `R` relates, whatever `Consume` does to
them. -/
structure Answers.Given (A : Answers ω τ) (O : Objects ω σ) (R : σ → τ → Prop) : Prop where
  alive : ∀ s u, R s u → ∀ w, O.alive s w = A.alive u w
  autoId : ∀ w, O.autoId w = A.autoId w
  produce : ∀ p s u, R s u →
    (O.produce p s).1 = (A.produce p u).1 ∧ R (O.produce p s).2 (A.produce p u).2
  consume : ∀ w e s u, R s u → R (O.consume w e s) u

/-- A call of `Produce`. -/
structure Batch (ω τ : Type) where
  /-- The producer. -/
  producer : ω
  /-- The events that it has returned. -/
  events : List Event
  /-- The state after the call. -/
  after : τ

namespace Answers

variable (A : Answers ω τ)

/-- What happens to the producers for a ready descriptor. -/
def produceEntry (producers : ℤ → Option ω) (u : τ × List (Batch ω τ)) (fd : ℤ) :
    τ × List (Batch ω τ) :=
  match producers fd with
  | none => u
  | some p =>
    if A.alive u.1 p then
      ((A.produce p u.1).2, u.2 ++ [⟨p, (A.produce p u.1).1, (A.produce p u.1).2⟩])
    else u

/-- The calls of `Produce` for the ready lists of some calls of `WaitAndRoute`. -/
def batches (producers : ℤ → Option ω) (rounds : List (List ℤ)) (u : τ) : List (Batch ω τ) :=
  (rounds.foldl (fun u ready => ready.foldl (A.produceEntry producers) u) (u, [])).2

/-- The consumer is alive when the events of the batch are routed, and it is not their
producer. -/
def Sees (c : ω) (b : Batch ω τ) : Prop :=
  A.alive b.after c ∧ A.autoId c ≠ A.autoId b.producer

instance (c : ω) (b : Batch ω τ) : Decidable (A.Sees c b) :=
  inferInstanceAs (Decidable (_ ∧ _))

/-- The copies of the events of a batch for a consumer that is listed `listed type` times for
`type`. -/
def copies (listed : EventType → ℕ) (c : ω) (b : Batch ω τ) : List Event :=
  if A.Sees c b then b.events.flatMap fun e => List.replicate (listed e.type) e else []

end Answers

/-- The events that a consumer gets, in order. -/
def received [DecidableEq ω] (c : ω) (calls : List (Call ω)) : List Event :=
  calls.filterMap fun
    | .produce _ => none
    | .consume consumer event => if consumer = c then some event else none

/-- The types that a consumer is registered for by some calls of `AddConsumer`. -/
def registered [DecidableEq ω] (calls : List (List EventType × ω)) (c : ω) : List EventType :=
  (calls.filter (·.2 = c)).flatMap Prod.fst

namespace EventRouter

/-- The router with the entries `producers` and no consumers. -/
def ofProducers (producers : ℤ → Option ω) : EventRouter ω := ⟨producers, fun _ => []⟩

/-- The router after some calls of `AddConsumer`. -/
def addConsumers (r : EventRouter ω) (calls : List (List EventType × ω)) : EventRouter ω :=
  calls.foldl (fun r call => r.addConsumer call.1 call.2) r

lemma addConsumers_producers (r : EventRouter ω) (calls : List (List EventType × ω)) :
    (r.addConsumers calls).producers = r.producers := by
  induction calls generalizing r with
  | nil => rfl
  | cons call calls ih =>
    rw [addConsumers, List.foldl_cons, ← addConsumers, ih, addConsumer_producers]

variable [DecidableEq ω]

lemma count_addConsumers (r : EventRouter ω) (calls : List (List EventType × ω)) (c : ω)
    (type : EventType) :
    ((r.addConsumers calls).consumers type).count c =
      (r.consumers type).count c + (registered calls c).count type := by
  induction calls generalizing r with
  | nil => simp [addConsumers, registered]
  | cons call calls ih =>
    rw [addConsumers, List.foldl_cons, ← addConsumers, ih, count_addConsumer]
    by_cases hc : call.2 = c
    · simp [registered, hc, Nat.add_assoc]
    · simp [registered, hc]

lemma count_registered_perm {calls calls' : List (List EventType × ω)}
    (h : calls.Perm calls') (c : ω) (type : EventType) :
    (registered calls c).count type = (registered calls' c).count type :=
  ((h.filter _).flatMap_right _).count_eq type

/-! ### What a consumer gets -/

variable {A : Answers ω τ} {O : Objects ω σ} {R : σ → τ → Prop} (hO : A.Given O R) (c : ω)

omit [DecidableEq ω] in
lemma routeEvent_cons (O : Objects ω σ) (producer : ω) (event : Event) (w : ω) (ws : List ω)
    (s : σ × List (Call ω)) :
    routeEvent O producer event (w :: ws) s =
      routeEvent O producer event ws
        (if O.alive s.1 w ∧ O.autoId w ≠ O.autoId producer then
          (O.consume w event.clone s.1, s.2 ++ [.consume w event.clone]) else s) :=
  rfl

include hO

/-- From the loop over the consumers of an event a consumer gets a clone for every time that
it is listed. -/
lemma received_routeEvent (producer : ω) (event : Event) (consumers : List ω)
    (s : σ × List (Call ω)) {u : τ} (hs : R s.1 u) :
    R (routeEvent O producer event consumers s).1 u ∧
    received c (routeEvent O producer event consumers s).2 = received c s.2 ++
      if A.alive u c ∧ A.autoId c ≠ A.autoId producer then
        List.replicate (consumers.count c) event else [] := by
  induction consumers generalizing s with
  | nil => simp [routeEvent, hs]
  | cons w ws ih =>
    have hround : (O.alive s.1 w ∧ O.autoId w ≠ O.autoId producer) ↔
        (A.alive u w ∧ A.autoId w ≠ A.autoId producer) := by
      rw [hO.alive s.1 u hs, hO.autoId, hO.autoId]
    rw [routeEvent_cons]
    by_cases hw : O.alive s.1 w ∧ O.autoId w ≠ O.autoId producer
    · rw [if_pos hw]
      obtain ⟨hstate, hreceived⟩ :=
        ih (O.consume w event.clone s.1, s.2 ++ [.consume w event.clone])
          (hO.consume w event.clone s.1 u hs)
      refine ⟨hstate, hreceived.trans ?_⟩
      by_cases hc : w = c
      · subst hc
        simp only [if_pos (hround.mp hw), List.count_cons_self, List.replicate_succ]
        simp [received]
      · rw [List.count_cons_of_ne hc]
        simp [received, hc]
    · rw [if_neg hw]
      obtain ⟨hstate, hreceived⟩ := ih s hs
      refine ⟨hstate, hreceived.trans ?_⟩
      by_cases hc : w = c
      · subst hc
        rw [if_neg (mt hround.mpr hw), if_neg (mt hround.mpr hw)]
      · rw [List.count_cons_of_ne hc]

lemma received_routeEvents (r : EventRouter ω) (producer : ω) (events : List Event)
    (s : σ × List (Call ω)) {u : τ} (hs : R s.1 u) :
    R (r.routeEvents O producer events s).1 u ∧
    received c (r.routeEvents O producer events s).2 = received c s.2 ++
      A.copies (fun type => (r.consumers type).count c) c ⟨producer, events, u⟩ := by
  induction events generalizing s with
  | nil => simp [routeEvents, Answers.copies, hs]
  | cons e es ih =>
    obtain ⟨hstate, hreceived⟩ :=
      received_routeEvent hO c producer e (r.consumers e.type) s hs
    obtain ⟨hstate', hreceived'⟩ := ih _ hstate
    rw [routeEvents, List.foldl_cons, ← routeEvents]
    refine ⟨hstate', hreceived'.trans ?_⟩
    rw [hreceived]
    by_cases hc : A.alive u c ∧ A.autoId c ≠ A.autoId producer
    · simp [Answers.copies, Answers.Sees, hc.1, hc.2]
    · have hsees : ∀ es, ¬ A.Sees c ⟨producer, es, u⟩ := fun _ => hc
      rw [Answers.copies, Answers.copies, if_neg hc, if_neg (hsees es),
        if_neg (hsees (e :: es)), List.append_nil]

omit hO in
/-- The state of a run of the router belongs to the answers so far: the objects are where
these lead, and the consumer has got its copies of the batches. -/
def Follows (A : Answers ω τ) (R : σ → τ → Prop) (listed : EventType → ℕ) (c : ω)
    (s : σ × List (Call ω)) (b : τ × List (Batch ω τ)) : Prop :=
  R s.1 b.1 ∧ received c s.2 = b.2.flatMap (A.copies listed c)

lemma follows_routeEntry (r : EventRouter ω) {s : σ × List (Call ω)}
    {b : τ × List (Batch ω τ)} (fd : ℤ)
    (h : Follows A R (fun type => (r.consumers type).count c) c s b) :
    Follows A R (fun type => (r.consumers type).count c) c (r.routeEntry O s fd)
      (A.produceEntry r.producers b fd) := by
  obtain ⟨hstate, hreceived⟩ := h
  rw [routeEntry, Answers.produceEntry]
  cases r.producers fd with
  | none => exact ⟨hstate, hreceived⟩
  | some p =>
    simp only [hO.alive s.1 b.1 hstate p]
    by_cases hp : A.alive b.1 p
    · simp only [hp, if_true]
      obtain ⟨hevents, hstate'⟩ := hO.produce p s.1 b.1 hstate
      rw [hevents]
      obtain ⟨hend, hreceived'⟩ := received_routeEvents hO c r p (A.produce p b.1).1
        ((O.produce p s.1).2, s.2 ++ [.produce p]) hstate'
      refine ⟨hend, hreceived'.trans ?_⟩
      rw [List.flatMap_append, ← hreceived]
      simp [received]
    · simp only [hp]
      exact ⟨hstate, hreceived⟩

/-- What a consumer gets in a run of the router. -/
lemma received_calls (r : EventRouter ω) (rounds : List (List ℤ)) {s : σ} {u : τ}
    (hs : R s u) :
    received c (r.calls O rounds s) = (A.batches r.producers rounds u).flatMap
      (A.copies (fun type => (r.consumers type).count c) c) := by
  have hrun : Follows A R (fun type => (r.consumers type).count c) c
      (rounds.foldl (r.waitAndRoute O) (s, []))
      (rounds.foldl (fun b ready => ready.foldl (A.produceEntry r.producers) b) (u, [])) := by
    refine List.foldl_rel ⟨hs, rfl⟩ fun ready _ s b h => ?_
    exact List.foldl_rel h fun fd _ s b h => follows_routeEntry hO c r fd h
  exact hrun.2

end EventRouter

open EventRouter

/-- **The order of registration.**  Two routers with the same producers, on which the same
calls of `AddConsumer` were made in two orders, give every consumer the same sequence of
events, when the objects of both give the same answers: from every batch that is not its own a
consumer gets each event as often as the type of the event occurs in its lists. -/
theorem registration_order [DecidableEq ω] {σ' : Type} (A : Answers ω τ) {O : Objects ω σ}
    {O' : Objects ω σ'} {R : σ → τ → Prop} {R' : σ' → τ → Prop} (hO : A.Given O R)
    (hO' : A.Given O' R') {s : σ} {s' : σ'} {u : τ} (hs : R s u) (hs' : R' s' u)
    (producers : ℤ → Option ω) {calls calls' : List (List EventType × ω)}
    (hperm : calls.Perm calls') (rounds : List (List ℤ)) (c : ω) :
    received c (((ofProducers producers).addConsumers calls).calls O rounds s) =
      received c (((ofProducers producers).addConsumers calls').calls O' rounds s') ∧
    received c (((ofProducers producers).addConsumers calls).calls O rounds s) =
      (A.batches producers rounds u).flatMap
        (A.copies (fun type => (registered calls c).count type) c) := by
  have hcounts : ∀ calls : List (List EventType × ω),
      (fun type => (((ofProducers producers).addConsumers calls).consumers type).count c) =
        fun type => (registered calls c).count type := by
    intro calls
    ext type
    rw [count_addConsumers]
    simp [ofProducers]
  have hreceived := received_calls hO c ((ofProducers producers).addConsumers calls) rounds hs
  have hreceived' :=
    received_calls hO' c ((ofProducers producers).addConsumers calls') rounds hs'
  rw [addConsumers_producers, hcounts] at hreceived hreceived'
  refine ⟨?_, hreceived⟩
  rw [hreceived, hreceived']
  simp only [ofProducers, count_registered_perm hperm c]

/-- Three calls in two orders, with consumers that keep what they get.  `ManagerC` returns a
serial and a control event, and `ManagerA`, which is registered twice for the one type and once
for the other, gets three copies. -/
theorem registration_order_swapped : ∃ (O : Objects Name (ℕ × List (Name × Event)))
    (producers : ℤ → Option Name) (calls calls' : List (List EventType × Name)),
    calls ≠ calls' ∧
    received .managerA (((ofProducers producers).addConsumers calls).calls O [[7]] (0, [])) =
      [.serialEvent [1], .serialEvent [1], .controlEvent 0 "stop"] ∧
    received .managerA (((ofProducers producers).addConsumers calls').calls O [[7]] (0, [])) =
      [.serialEvent [1], .serialEvent [1], .controlEvent 0 "stop"] := by
  let A : Answers Name ℕ :=
    { alive := fun _ _ => true
      autoId := (app12 fun _ => (3, 4)).autoId
      produce := fun _ k => ([.serialEvent [1], .controlEvent 0 "stop"], k + 1) }
  let O : Objects Name (ℕ × List (Name × Event)) :=
    { alive := fun s => A.alive s.1
      autoId := A.autoId
      produce := fun p s => ((A.produce p s.1).1, (A.produce p s.1).2, s.2)
      consume := fun w e s => (s.1, s.2 ++ [(w, e)]) }
  have hO : A.Given O fun s k => s.1 = k := by
    refine ⟨?_, fun _ => rfl, ?_, fun _ _ _ _ h => h⟩
    · rintro s _ rfl w
      rfl
    · rintro p s _ rfl
      exact ⟨rfl, rfl⟩
  let producers : ℤ → Option Name := fun fd => if fd = 7 then some .managerC else none
  let calls : List (List EventType × Name) :=
    [([.serial, .control], .managerA), ([.serial], .managerB), ([.serial], .managerA)]
  let calls' : List (List EventType × Name) :=
    [([.serial], .managerA), ([.serial], .managerB), ([.serial, .control], .managerA)]
  have hperm : calls.Perm calls' := by decide
  have horder := registration_order A hO hO (s := (0, [])) (u := 0) rfl
    (rfl : ((0, []) : ℕ × List (Name × Event)).1 = 0) producers hperm [[7]] .managerA
  refine ⟨O, producers, calls, calls', by decide, rfl, ?_⟩
  rw [← horder.1]
  rfl

end EventManager.App12
