import EventManager.Lib.Linearize

/-!
# Programs that use an object

A *client* is a program whose threads have states of their own, share some other state, and
call the operations of an object.  It can be run over the object, where an operation is one
step, or over an implementation, where the steps of the calls interleave with everything
else that the threads do.

`Client.simulation` is what linearizability is good for: a client that runs over an
implementation does nothing that it does not do over the object.  A result about the program
with the object in it is then one about the program with the implementation in it.

A family of objects is an object, too (`Object.family`), and is implemented by
implementations of its members (`Impl.Refines.family`).
-/

namespace Steps

/-! ### Clients -/

/-- A program: the threads `τ`, each with a state `Λ t`, the state `γ` that they share beside
the object, and what is left open in their own steps, `β`. -/
structure Client (γ τ ι ρ β : Type*) (Λ : τ → Type*) where
  /-- The shared state at the start. -/
  init : γ
  /-- The threads at the start. -/
  threads : (t : τ) → Λ t
  /-- The operation that a thread is to call next. -/
  want : (t : τ) → Λ t → Option ι
  /-- How a thread goes on when the operation has returned. -/
  resume : (t : τ) → Λ t → ρ → Λ t
  /-- A step of a thread that does not touch the object. -/
  act : (t : τ) → γ → Λ t → β → Option (γ × Λ t)

namespace Client

variable {γ τ ι ρ β ν σ κ ω χ : Type*} {Λ : τ → Type*}

/-- A client over an object. -/
structure State (ν γ : Type*) {τ : Type*} (Λ : τ → Type*) where
  /-- The value of the object. -/
  value : ν
  /-- The rest of the shared state. -/
  shared : γ
  /-- The threads. -/
  threads : (t : τ) → Λ t

/-- The steps of a client over an object. -/
inductive Action (τ β χ : Type*)
  | op (t : τ) (choice : χ)
  | act (t : τ) (b : β)

variable [DecidableEq τ]

/-- The client with the object: an operation is one step. -/
def withObject (C : Client γ τ ι ρ β Λ) (O : Object ν ι ρ χ) :
    Machine (State ν γ Λ) (Action τ β χ) where
  init s := s = ⟨O.init, C.init, C.threads⟩
  next s
    | .op t choice => (C.want t (s.threads t)).bind fun op =>
        (O.apply s.value op choice).map fun p => { s with
          value := p.1
          threads := Function.update s.threads t (C.resume t (s.threads t) p.2) }
    | .act t b => (C.act t s.shared (s.threads t) b).map fun p =>
        { s with shared := p.1, threads := Function.update s.threads t p.2 }

/-- A client over an implementation. -/
structure ImplState (σ γ ι κ : Type*) {τ : Type*} (Λ : τ → Type*) where
  /-- The state of the implementation. -/
  impl : σ
  /-- The call that a thread is in, and the step that it takes next. -/
  calls : τ → Option (ι × κ)
  /-- The rest of the shared state. -/
  shared : γ
  /-- The threads. -/
  threads : (t : τ) → Λ t

/-- The steps of a client over an implementation. -/
inductive ImplAction (τ β ω : Type*)
  | call (t : τ)
  | step (t : τ) (choice : ω)
  | act (t : τ) (b : β)

/-- The state after a step of a call: the call goes on, or the thread does. -/
def advance (C : Client γ τ ι ρ β Λ) (s : ImplState σ γ ι κ Λ) (t : τ) (op : ι) (q : σ) :
    κ ⊕ ρ → ImplState σ γ ι κ Λ
  | .inl k => { s with impl := q, calls := Function.update s.calls t (some (op, k)) }
  | .inr res => { s with
      impl := q
      calls := Function.update s.calls t none
      threads := Function.update s.threads t (C.resume t (s.threads t) res) }

/-- The client with the implementation: a thread that is in a call takes the steps of the
call. -/
def withImpl (C : Client γ τ ι ρ β Λ) (I : Impl σ τ ι ρ κ ω) :
    Machine (ImplState σ γ ι κ Λ) (ImplAction τ β ω) where
  init s := s = ⟨I.init, fun _ => none, C.init, C.threads⟩
  next s
    | .call t =>
      match s.calls t with
      | none => (C.want t (s.threads t)).bind fun op => (I.call s.impl t op).map fun k =>
          { s with calls := Function.update s.calls t (some (op, k)) }
      | some _ => none
    | .step t choice =>
      match s.calls t with
      | none => none
      | some (op, k) => (I.step s.impl k choice).map fun p => C.advance s t op p.1 p.2
    | .act t b =>
      match s.calls t with
      | none => (C.act t s.shared (s.threads t) b).map fun p =>
          { s with shared := p.1, threads := Function.update s.threads t p.2 }
      | some _ => none

variable {C : Client γ τ ι ρ β Λ} {I : Impl σ τ ι ρ κ ω} {O : Object ν ι ρ χ}
  {Rel : σ → Impl.Phases τ ι ρ κ → ν → Prop}

/-- A thread as the object sees it: it goes on as soon as its operation has taken effect. -/
def ahead (C : Client γ τ ι ρ β Λ) {t : τ} (l : Λ t) (done : Option ρ) : Λ t :=
  done.elim l (C.resume t l)

/-- The client over the implementation looks like the client over the object, except that a
thread has not seen the result yet of an operation that has taken effect. -/
structure View (C : Client γ τ ι ρ β Λ) (Rel : σ → Impl.Phases τ ι ρ κ → ν → Prop)
    (ph : Impl.Phases τ ι ρ κ) (s : ImplState σ γ ι κ Λ) (a : State ν γ Λ) : Prop where
  rel : Rel s.impl ph a.value
  calls : ∀ t, s.calls t = (ph t).map fun p => (p.1, p.2.1)
  want : ∀ t op k done, ph t = some (op, k, done) → C.want t (s.threads t) = some op
  shared : a.shared = s.shared
  threads : ∀ t, a.threads t = C.ahead (s.threads t) ((ph t).bind fun p => p.2.2)

section

variable {ph : Impl.Phases τ ι ρ κ} {s s' : ImplState σ γ ι κ Λ} {a : State ν γ Λ} {t : τ}

omit [DecidableEq τ] in
lemma View.phase (hv : View C Rel ph s a) {op : ι} {k : κ} (h : s.calls t = some (op, k)) :
    ∃ done, ph t = some (op, k, done) := by
  obtain ⟨⟨op', k', done⟩, hph, heq⟩ := Option.map_eq_some_iff.mp ((hv.calls t).symm.trans h)
  cases heq
  exact ⟨done, hph⟩

omit [DecidableEq τ] in
lemma View.idle (hv : View C Rel ph s a) (h : s.calls t = none) :
    ph t = none ∧ a.threads t = s.threads t := by
  have hph : ph t = none := by simpa [hv.calls t] using h
  refine ⟨hph, ?_⟩
  rw [hv.threads t, hph]
  rfl

lemma View.call (hI : I.Refines O Rel) (hv : View C Rel ph s a)
    (h : (C.withImpl I).next s (.call t) = some s') : ∃ ph', View C Rel ph' s' a := by
  simp only [withImpl] at h
  split at h
  · rename_i hidle
    obtain ⟨op, hop, h⟩ := Option.bind_eq_some_iff.mp h
    obtain ⟨k, hk, rfl⟩ := Option.map_eq_some_iff.mp h
    obtain ⟨hph, hthread⟩ := hv.idle hidle
    refine ⟨Function.update ph t (some (op, k, none)), hI.call hv.rel hph hk, ?_, ?_,
      hv.shared, ?_⟩
    · exact Impl.map_update hv.calls t (some (op, k, none))
    · intro u op' k' done hu
      by_cases hut : u = t
      · subst hut
        rw [Function.update_self] at hu
        cases hu
        exact hop
      · rw [Function.update_of_ne hut] at hu
        exact hv.want u op' k' done hu
    · intro u
      by_cases hut : u = t
      · subst hut
        rw [Function.update_self]
        exact hthread
      · rw [Function.update_of_ne hut]
        exact hv.threads u
  · cases h

lemma View.act (hv : View C Rel ph s a) {b : β}
    (h : (C.withImpl I).next s (.act t b) = some s') :
    ∃ a', (C.withObject O).next a (.act t b) = some a' ∧ View C Rel ph s' a' := by
  simp only [withImpl] at h
  split at h
  · rename_i hidle
    obtain ⟨⟨g, l⟩, hact, rfl⟩ := Option.map_eq_some_iff.mp h
    obtain ⟨hph, hthread⟩ := hv.idle hidle
    refine ⟨{ a with shared := g, threads := Function.update a.threads t l }, ?_,
      hv.rel, hv.calls, ?_, rfl, ?_⟩
    · simp only [withObject, hv.shared, hthread, hact, Option.map_some]
    · intro u op k done hu
      have hut : u ≠ t := by
        rintro rfl
        rw [hph] at hu
        cases hu
      simp only [Function.update_of_ne hut]
      exact hv.want u op k done hu
    · intro u
      by_cases hut : u = t
      · subst hut
        simp only [Function.update_self, hph]
        rfl
      · simp only [Function.update_of_ne hut]
        exact hv.threads u
  · cases h

/-- The two clients after a step of a call that has taken the operation from `done` to
`done'`. -/
lemma View.advance (hv : View C Rel ph s a) {op : ι} {k : κ} {done done' : Option ρ} {q : σ}
    {r : κ ⊕ ρ} {v' : ν} (hph : ph t = some (op, k, done))
    (hret : ∀ res, r = .inr res → done' = some res)
    (hrel : Rel q (Function.update ph t (r.getLeft?.map fun k' => (op, k', done'))) v') :
    View C Rel (Function.update ph t (r.getLeft?.map fun k' => (op, k', done')))
      (C.advance s t op q r)
      { a with
        value := v'
        threads := Function.update a.threads t (C.ahead (s.threads t) done') } := by
  have hwant := hv.want t op k done hph
  cases r with
  | inl k' =>
    refine ⟨hrel, Impl.map_update hv.calls t (some (op, k', done')), ?_, hv.shared, ?_⟩
    · intro u op' k'' d hu
      by_cases hut : u = t
      · subst hut
        have heq : some (op, k', done') = some (op', k'', d) := by simpa using hu
        cases heq
        exact hwant
      · rw [Function.update_of_ne hut] at hu
        exact hv.want u op' k'' d hu
    · intro u
      by_cases hut : u = t
      · subst hut
        simp [Client.advance]
      · simp only [Function.update_of_ne hut]
        exact hv.threads u
  | inr res =>
    obtain rfl := hret res rfl
    refine ⟨hrel, Impl.map_update hv.calls t none, ?_, hv.shared, ?_⟩
    · intro u op' k'' d hu
      have hut : u ≠ t := by
        rintro rfl
        simp at hu
      simp only [Client.advance, Function.update_of_ne hut] at hu ⊢
      exact hv.want u op' k'' d hu
    · intro u
      by_cases hut : u = t
      · subst hut
        simp [Client.advance, ahead]
      · simp only [Client.advance, Function.update_of_ne hut]
        exact hv.threads u

/-- A step of a call is the step of the client over the object when its operation takes effect
now, and no step otherwise. -/
lemma View.step (hI : I.Refines O Rel) (hv : View C Rel ph s a) {choice : ω}
    (h : (C.withImpl I).next s (.step t choice) = some s') :
    (∃ ph', View C Rel ph' s' a) ∨
      ∃ ph' c a', (C.withObject O).next a (.op t c) = some a' ∧ View C Rel ph' s' a' := by
  simp only [withImpl] at h
  split at h
  · cases h
  · rename_i op k hbusy
    obtain ⟨⟨q, r⟩, hr, rfl⟩ := Option.map_eq_some_iff.mp h
    obtain ⟨done, hph⟩ := hv.phase hbusy
    obtain ⟨v', done', htaken, hret, hrel⟩ := hI.step hv.rel hph hr
    have hview := hv.advance hph hret hrel
    have hthread : a.threads t = C.ahead (s.threads t) done := by
      rw [hv.threads t, hph]
      rfl
    cases htaken with
    | stay =>
      rw [← hthread, Function.update_eq_self] at hview
      exact Or.inl ⟨_, hview⟩
    | effect c happly =>
      refine Or.inr ⟨_, c, _, ?_, hview⟩
      have hwant := hv.want t op k none hph
      have hnow : a.threads t = s.threads t := hthread
      simp only [withObject, hnow, hwant, Option.bind_some, happly, Option.map_some]
      rfl

end

/-- **Linearizability is enough.**  A client that runs over an implementation does what it does
over the object. -/
theorem simulation (hI : I.Refines O Rel) :
    Simulation (C.withImpl I) (C.withObject O) fun s a => ∃ ph, View C Rel ph s a where
  init s hs := by
    obtain rfl : s = _ := hs
    exact ⟨_, rfl, fun _ => none, hI.init, fun _ => rfl, by simp, rfl, fun _ => rfl⟩
  step s act s' a hR h := by
    obtain ⟨ph, hv⟩ := hR
    cases act with
    | call t => exact Or.inl (hv.call hI h)
    | step t choice =>
      rcases hv.step hI h with hstay | ⟨ph', c, a', hnext, hv'⟩
      · exact Or.inl hstay
      · exact Or.inr ⟨_, a', hnext, ph', hv'⟩
    | act t b =>
      obtain ⟨a', hnext, hv'⟩ := hv.act h
      exact Or.inr ⟨_, a', hnext, ph, hv'⟩

end Client

/-! ### Families -/

section

variable {δ ν τ θ ι ρ σ κ ω χ : Type*} [DecidableEq δ]

/-- A family of objects: an operation is one of the member that it names, by one of the
threads of that member. -/
def Object.family (τ : Type*) (O : δ → Object ν ι ρ χ) : Object (δ → ν) (δ × τ × ι) ρ χ where
  init d := (O d).init
  apply v op choice := ((O op.1).apply (v op.1) op.2.2 choice).map fun p =>
    (Function.update v op.1 p.1, p.2)

namespace Impl

variable [DecidableEq τ] [DecidableEq θ]

/-- A family of implementations, in which `owner d u` is the thread `u` of the member `d`. -/
def family (I : δ → Impl σ τ ι ρ κ ω) (owner : δ → τ → θ) :
    Impl (δ → σ) θ (δ × τ × ι) ρ (δ × κ) ω where
  init d := (I d).init
  call s t op :=
    if owner op.1 op.2.1 = t then ((I op.1).call (s op.1) op.2.1 op.2.2).map (Prod.mk op.1)
    else none
  step s k choice := ((I k.1).step (s k.1) k.2 choice).map fun p =>
    (Function.update s k.1 p.1, p.2.map (Prod.mk k.1) id)

/-- The calls of one member. -/
def part (owner : δ → τ → θ) (ph : Phases θ (δ × τ × ι) ρ (δ × κ)) (d : δ) :
    Phases τ ι ρ κ := fun u =>
  (ph (owner d u)).bind fun p =>
    if p.1.1 = d ∧ p.1.2.1 = u then some (p.1.2.2, p.2.1.2, p.2.2) else none

variable {owner : δ → τ → θ} {ph : Phases θ (δ × τ × ι) ρ (δ × κ)}

lemma part_update (d : δ) (u : τ) (y : Option (ι × κ × Option ρ))
    (h : ∀ p, ph (owner d u) = some p → p.1.1 = d ∧ p.1.2.1 = u) :
    part owner (Function.update ph (owner d u)
        (y.map fun p => ((d, u, p.1), (d, p.2.1), p.2.2))) =
      Function.update (part owner ph) d (Function.update (part owner ph d) u y) := by
  funext d' u'
  by_cases hd : d' = d ∧ u' = u
  · obtain ⟨rfl, rfl⟩ := hd
    cases y <;> simp [part]
  · -- the thread may belong to another member, but is in no call there
    have hright : Function.update (part owner ph) d (Function.update (part owner ph d) u y) d' u' =
        part owner ph d' u' := by
      by_cases hd' : d' = d
      · subst hd'
        rw [Function.update_self, Function.update_of_ne fun hu => hd ⟨rfl, hu⟩]
      · rw [Function.update_of_ne hd']
    rw [hright]
    by_cases ho : owner d' u' = owner d u
    · have hne : ¬ (d = d' ∧ u = u') := fun h => hd ⟨h.1.symm, h.2.symm⟩
      have hnone : part owner ph d' u' = none := by
        rw [part, ho]
        cases hp : ph (owner d u) with
        | none => rfl
        | some p =>
          obtain ⟨h₁, h₂⟩ := h p hp
          rw [Option.bind_some, if_neg (by rw [h₁, h₂]; exact hne)]
      rw [hnone, part, ho, Function.update_self]
      cases y with
      | none => rfl
      | some p => simp [hne]
    · simp only [part, Function.update_of_ne ho]

/-- What relates the members of a family: the calls of a thread are those of its own
members. -/
structure Family (owner : δ → τ → θ) (Rel : δ → σ → Phases τ ι ρ κ → ν → Prop) (s : δ → σ)
    (ph : Phases θ (δ × τ × ι) ρ (δ × κ)) (v : δ → ν) : Prop where
  rel : ∀ d, Rel d (s d) (part owner ph d) (v d)
  named : ∀ t p, ph t = some p → p.2.1.1 = p.1.1 ∧ owner p.1.1 p.1.2.1 = t

variable {Rel : δ → σ → Phases τ ι ρ κ → ν → Prop} {s : δ → σ} {v : δ → ν}

lemma Family.update (h : Family owner Rel s ph v) {d : δ} {u : τ} {q : σ} {v' : ν}
    (y : Option (ι × κ × Option ρ))
    (hp : ∀ p, ph (owner d u) = some p → p.1.1 = d ∧ p.1.2.1 = u)
    (hrel : Rel d q (Function.update (part owner ph d) u y) v') :
    Family owner Rel (Function.update s d q)
      (Function.update ph (owner d u) (y.map fun p => ((d, u, p.1), (d, p.2.1), p.2.2)))
      (Function.update v d v') where
  rel d' := by
    rw [part_update d u y hp]
    by_cases hd : d' = d
    · subst hd
      simpa only [Function.update_self] using hrel
    · simpa only [Function.update_of_ne hd] using h.rel d'
  named t p ht := by
    by_cases hto : t = owner d u
    · subst hto
      rw [Function.update_self] at ht
      obtain ⟨_, -, rfl⟩ := Option.map_eq_some_iff.mp ht
      exact ⟨rfl, rfl⟩
    · rw [Function.update_of_ne hto] at ht
      exact h.named t p ht

/-- A family of implementations refines the family of their objects. -/
theorem Refines.family {I : δ → Impl σ τ ι ρ κ ω} {O : δ → Object ν ι ρ χ}
    (owner : δ → τ → θ) (h : ∀ d, (I d).Refines (O d) (Rel d)) :
    (family I owner).Refines (Object.family τ O) (Family owner Rel) where
  init := ⟨fun d => (h d).init, by simp⟩
  call {s ph v t op k} hI ht hk := by
    obtain ⟨d, u, op⟩ := op
    obtain ⟨howner, hmap⟩ := Option.ite_none_right_eq_some.mp hk
    obtain ⟨k, hcall, rfl⟩ := Option.map_eq_some_iff.mp hmap
    simp only at howner hcall
    subst howner
    have hidle : part owner ph d u = none := by simp [part, ht]
    have hI' := hI.update (some (op, k, none)) (by simp [ht])
      ((h d).call (hI.rel d) hidle hcall)
    rwa [Function.update_eq_self, Function.update_eq_self] at hI'
  step {s ph v t op k done choice s' r} hI ht hs := by
    obtain ⟨d, u, op⟩ := op
    obtain ⟨d', k⟩ := k
    obtain ⟨hd, howner⟩ := hI.named t _ ht
    simp only at hd howner
    subst hd howner
    obtain ⟨⟨q, r⟩, hr, heq⟩ := Option.map_eq_some_iff.mp hs
    cases heq
    have hbusy : part owner ph d' u = some (op, k, done) := by simp [part, ht]
    obtain ⟨v', done', htaken, hret, hrel⟩ := (h d').step (hI.rel d') hbusy hr
    have hI' := hI.update _ (by simp [ht]) hrel
    refine ⟨Function.update v d' v', done', ?_, ?_, ?_⟩
    · cases htaken with
      | stay =>
        rw [Function.update_eq_self]
        exact .stay _
      | effect c happly => exact .effect c (by simp [Object.family, happly])
    · rintro res hres
      cases r with
      | inl k' => cases hres
      | inr res' => exact hret res (by simpa using hres)
    · cases r with
      | inl k' => exact hI'
      | inr res => exact hI'

end Impl

end

end Steps
