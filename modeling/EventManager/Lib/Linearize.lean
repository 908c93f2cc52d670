import EventManager.Lib.Machine

/-!
# Objects, implementations and linearizability

An *object* is given by its sequential behaviour: what an operation does to its value, and
what it returns.  Threads that share an object call operations and get results; in between
each operation takes effect once, in one step (`Object.atomic`).

An *implementation* takes several steps for an operation, and the steps of the threads
interleave (`Impl.machine`).  It is *linearizable* when the threads cannot tell it from the
object: the calls and the returns that they see, in the order in which they see them, are
those of some run of the object.  Since a call and its return are entries of one history, an
operation that has returned before another one is called takes effect before it.

`Refines` is the rule for proving this: a step of a call lets the operation take effect, or
leaves the value as it is, and a call returns what its operation has returned.
-/

namespace Steps

/-- An object: the value that it starts with, and the effect and the result of an operation,
`none` when the operation waits.  What the object leaves open is a choice `χ`. -/
structure Object (ν ι ρ χ : Type*) where
  /-- The value at the start. -/
  init : ν
  /-- The value after an operation, and its result. -/
  apply : ν → ι → χ → Option (ν × ρ)

/-- What the threads see: a thread calls an operation, or a call returns. -/
inductive Mark (τ ι ρ : Type*)
  | call (t : τ) (op : ι)
  | ret (t : τ) (res : ρ)
deriving DecidableEq, Repr

namespace Object

variable {ν τ ι ρ χ : Type*}

/-- An object and the threads that use it. -/
structure Atomic (ν τ ι ρ : Type*) where
  /-- The value. -/
  value : ν
  /-- The operation that a thread has called, with its result once it has taken effect. -/
  calls : τ → Option (ι × Option ρ)
  /-- What the threads have seen. -/
  history : List (Mark τ ι ρ)

/-- The steps of the threads. -/
inductive Action (τ ι χ : Type*)
  | call (t : τ) (op : ι)
  | effect (t : τ) (choice : χ)
  | ret (t : τ)

variable [DecidableEq τ] (O : Object ν ι ρ χ)

/-- The effect of a step. -/
def next (a : Atomic ν τ ι ρ) : Action τ ι χ → Option (Atomic ν τ ι ρ)
  | .call t op =>
    match a.calls t with
    | none => some { a with
        calls := Function.update a.calls t (some (op, none))
        history := a.history ++ [.call t op] }
    | some _ => none
  | .effect t choice =>
    match a.calls t with
    | some (op, none) => (O.apply a.value op choice).map fun p => { a with
        value := p.1
        calls := Function.update a.calls t (some (op, some p.2)) }
    | _ => none
  | .ret t =>
    match a.calls t with
    | some (_, some res) => some { a with
        calls := Function.update a.calls t none
        history := a.history ++ [.ret t res] }
    | _ => none

/-- The threads that use the object: an operation takes effect at some time between its call
and its return. -/
def atomic (τ : Type*) [DecidableEq τ] : Machine (Atomic ν τ ι ρ) (Action τ ι χ) where
  init a := a = ⟨O.init, fun _ => none, []⟩
  next := O.next

section

variable {O} {a : Atomic ν τ ι ρ} {t : τ} {op : ι} {c : χ}

lemma next_call (ha : a.calls t = none) (op : ι) :
    (O.atomic τ).next a (.call t op) = some { a with
      calls := Function.update a.calls t (some (op, none))
      history := a.history ++ [.call t op] } := by
  simp only [atomic, next, ha]

lemma next_effect {v : ν} {res : ρ} (ha : a.calls t = some (op, none))
    (h : O.apply a.value op c = some (v, res)) :
    (O.atomic τ).next a (.effect t c) = some { a with
      value := v
      calls := Function.update a.calls t (some (op, some res)) } := by
  simp only [atomic, next, ha, h, Option.map_some]

lemma next_ret {res : ρ} (ha : a.calls t = some (op, some res)) :
    (O.atomic τ).next a (.ret t) = some { a with
      calls := Function.update a.calls t none
      history := a.history ++ [.ret t res] } := by
  simp only [atomic, next, ha]

lemma call_inv {a' : Atomic ν τ ι ρ} (h : (O.atomic τ).next a (.call t op) = some a') :
    a.calls t = none ∧ a' = { a with
      calls := Function.update a.calls t (some (op, none))
      history := a.history ++ [.call t op] } := by
  simp only [atomic, next] at h
  split at h
  · rename_i hidle
    exact ⟨hidle, (Option.some.inj h).symm⟩
  · cases h

lemma effect_inv {a' : Atomic ν τ ι ρ} (h : (O.atomic τ).next a (.effect t c) = some a') :
    ∃ op v res, a.calls t = some (op, none) ∧ O.apply a.value op c = some (v, res) ∧ a' = { a with
      value := v
      calls := Function.update a.calls t (some (op, some res)) } := by
  simp only [atomic, next] at h
  split at h
  · rename_i op hcall
    obtain ⟨⟨v, res⟩, happly, rfl⟩ := Option.map_eq_some_iff.mp h
    exact ⟨op, v, res, hcall, happly, rfl⟩
  · cases h

lemma ret_inv {a' : Atomic ν τ ι ρ} (h : (O.atomic τ).next a (.ret t) = some a') :
    ∃ op res, a.calls t = some (op, some res) ∧ a' = { a with
      calls := Function.update a.calls t none
      history := a.history ++ [.ret t res] } := by
  simp only [atomic, next] at h
  split at h
  · rename_i op res hcall
    exact ⟨op, res, hcall, (Option.some.inj h).symm⟩
  · cases h

end

/-- What a step may do to the value and to the result of an operation. -/
inductive Taken (v : ν) (op : ι) : Option ρ → ν → Option ρ → Prop
  | stay (done : Option ρ) : Taken v op done v done
  | effect {v' : ν} {res : ρ} (choice : χ) (h : O.apply v op choice = some (v', res)) :
      Taken v op none v' (some res)

omit [DecidableEq τ] in
variable {O} in
/-- An operation takes effect once. -/
lemma Taken.trans {v v' v'' : ν} {op : ι} {d d' d'' : Option ρ} (h : O.Taken v op d v' d')
    (h' : O.Taken v' op d' v'' d'') : O.Taken v op d v'' d'' := by
  cases h with
  | stay => exact h'
  | effect choice h =>
    cases h' with
    | stay => exact .effect choice h

omit [DecidableEq τ] in
variable {O} in
/-- The effect of an operation that has taken effect in the end, and had not at first. -/
lemma Taken.apply_eq {v v' : ν} {op : ι} {res : ρ} (h : O.Taken v op none v' (some res)) :
    ∃ c, O.apply v op c = some (v', res) := by
  cases h with
  | effect choice h => exact ⟨choice, h⟩

end Object

/-! ### Implementations -/

/-- An implementation of an object, with shared state `σ`, in which the thread `t` is at some
step `κ` of its call.  What is left open, such as the order in which operands are evaluated,
is a choice `ω`. -/
structure Impl (σ τ ι ρ κ ω : Type*) where
  /-- The shared state at the start. -/
  init : σ
  /-- The first step of a call, `none` when the thread must not call the operation. -/
  call : σ → τ → ι → Option κ
  /-- A step of a call: where it goes on, or what it returns. -/
  step : σ → κ → ω → Option (σ × (κ ⊕ ρ))

namespace Impl

variable {σ τ ι ρ κ ω ν χ : Type*}

/-- An implementation and the threads that use it. -/
structure Threads (σ τ ι ρ κ : Type*) where
  /-- The shared state. -/
  shared : σ
  /-- The call that a thread is in, and the step that it takes next. -/
  calls : τ → Option (ι × κ)
  /-- What the threads have seen. -/
  history : List (Mark τ ι ρ)

/-- The steps of the threads. -/
inductive Action (τ ι ω : Type*)
  | call (t : τ) (op : ι)
  | step (t : τ) (choice : ω)
deriving DecidableEq, Repr

variable [DecidableEq τ] (I : Impl σ τ ι ρ κ ω)

/-- The effect of a step. -/
def next (s : Threads σ τ ι ρ κ) : Action τ ι ω → Option (Threads σ τ ι ρ κ)
  | .call t op =>
    match s.calls t with
    | none => (I.call s.shared t op).map fun k => { s with
        calls := Function.update s.calls t (some (op, k))
        history := s.history ++ [.call t op] }
    | some _ => none
  | .step t choice =>
    match s.calls t with
    | none => none
    | some (op, k) => (I.step s.shared k choice).map fun p =>
        ⟨p.1, Function.update s.calls t (p.2.getLeft?.map fun k' => (op, k')),
          s.history ++ match p.2 with
            | .inl _ => []
            | .inr res => [.ret t res]⟩

/-- The threads that use the implementation. -/
def machine : Machine (Threads σ τ ι ρ κ) (Action τ ι ω) where
  init s := s = ⟨I.init, fun _ => none, []⟩
  next := I.next

section

variable {I} {s s' : Threads σ τ ι ρ κ} {t : τ} {k : κ}

lemma call_inv {op : ι} (h : I.next s (.call t op) = some s') :
    s.calls t = none ∧ ∃ k, I.call s.shared t op = some k ∧
      s' = ⟨s.shared, Function.update s.calls t (some (op, k)), s.history ++ [.call t op]⟩ := by
  simp only [next] at h
  split at h
  · rename_i hidle
    obtain ⟨k, hk, rfl⟩ := Option.map_eq_some_iff.mp h
    exact ⟨hidle, k, hk, rfl⟩
  · cases h

lemma step_inv {choice : ω} (h : I.next s (.step t choice) = some s') :
    ∃ op k q r, s.calls t = some (op, k) ∧ I.step s.shared k choice = some (q, r) ∧
      s' = ⟨q, Function.update s.calls t (r.getLeft?.map fun k' => (op, k')),
        s.history ++ r.elim (fun _ => []) fun res => [.ret t res]⟩ := by
  simp only [next] at h
  split at h
  · cases h
  · rename_i op k hbusy
    obtain ⟨⟨q, r⟩, hr, rfl⟩ := Option.map_eq_some_iff.mp h
    refine ⟨op, k, q, r, hbusy, hr, ?_⟩
    cases r <;> rfl

lemma next_step {op : ι} {choice : ω} {q : σ} {r : κ ⊕ ρ} (hs : s.calls t = some (op, k))
    (hr : I.step s.shared k choice = some (q, r)) :
    I.machine.next s (.step t choice) = some ⟨q,
      Function.update s.calls t (r.getLeft?.map fun k' => (op, k')),
      s.history ++ r.elim (fun _ => []) fun res => [.ret t res]⟩ := by
  cases r <;> simp only [machine, next, hs, hr, Option.map_some, Sum.elim_inl, Sum.elim_inr]

lemma exists_reachable_call (op : ι) (h : I.machine.Reachable s) (hs : s.calls t = none)
    (hk : I.call s.shared t op = some k) :
    ∃ s', I.machine.Reachable s' ∧ s'.shared = s.shared ∧
      s'.calls = Function.update s.calls t (some (op, k)) := by
  refine ⟨⟨s.shared, Function.update s.calls t (some (op, k)), s.history ++ [.call t op]⟩,
    h.next (a := .call t op) ?_, rfl, rfl⟩
  simp only [machine, next, hs, hk, Option.map_some]

lemma exists_reachable_step {op : ι} (choice : ω) {q : σ} {r : κ ⊕ ρ} (h : I.machine.Reachable s)
    (hs : s.calls t = some (op, k)) (hr : I.step s.shared k choice = some (q, r)) :
    ∃ s', I.machine.Reachable s' ∧ s'.shared = q ∧
      s'.calls = Function.update s.calls t (r.getLeft?.map fun k' => (op, k')) :=
  ⟨_, h.next (next_step hs hr), rfl, rfl⟩

end

/-- No step of a call in progress is refused. -/
def Safe : Prop :=
  ∀ s, I.machine.Reachable s → ∀ t op k choice, s.calls t = some (op, k) →
    (I.step s.shared k choice).isSome

/-- A call that runs alone, in at most `fuel` steps: the shared state that it leaves, and what
it returns. -/
def alone (choice : ω) : ℕ → σ → κ → Option (σ × ρ)
  | 0, _, _ => none
  | fuel + 1, s, k => (I.step s k choice).bind fun p =>
      match p.2 with
      | .inl k' => alone choice fuel p.1 k'
      | .inr res => some (p.1, res)

/-- The threads cannot tell the implementation from the object. -/
def Linearizable (O : Object ν ι ρ χ) : Prop :=
  ∀ s, I.machine.Reachable s → ∃ a, (O.atomic τ).Reachable a ∧ a.history = s.history

/-! ### The rule -/

/-- The calls of the threads, each with the result of its operation once it has taken
effect. -/
abbrev Phases (τ ι ρ κ : Type*) : Type _ := τ → Option (ι × κ × Option ρ)

/-- A relation between shared states, calls in progress and values of the object that every
step keeps, when it lets the operation of its thread take effect, or none. -/
structure Refines (O : Object ν ι ρ χ) (Rel : σ → Phases τ ι ρ κ → ν → Prop) : Prop where
  init : Rel I.init (fun _ => none) O.init
  call : ∀ {s ph v t op k}, Rel s ph v → ph t = none → I.call s t op = some k →
    Rel s (Function.update ph t (some (op, k, none))) v
  step : ∀ {s ph v t op k done choice s' r}, Rel s ph v → ph t = some (op, k, done) →
    I.step s k choice = some (s', r) →
    ∃ v' done', O.Taken v op done v' done' ∧ (∀ res, r = .inr res → done' = some res) ∧
      Rel s' (Function.update ph t (r.getLeft?.map fun k' => (op, k', done'))) v'

variable {I} {O : Object ν ι ρ χ} {Rel : σ → Phases τ ι ρ κ → ν → Prop}

/-- The threads are in the same calls, and have seen the same. -/
structure Refines.View (Rel : σ → Phases τ ι ρ κ → ν → Prop) (ph : Phases τ ι ρ κ)
    (s : Threads σ τ ι ρ κ) (a : Object.Atomic ν τ ι ρ) : Prop where
  rel : Rel s.shared ph a.value
  calls : ∀ t, s.calls t = (ph t).map fun p => (p.1, p.2.1)
  atomic : ∀ t, a.calls t = (ph t).map fun p => (p.1, p.2.2)
  history : a.history = s.history

lemma map_update {α β : Type*} {f : τ → Option α} {g : τ → Option β} {F : β → α}
    (h : ∀ t, f t = (g t).map F) (t : τ) (y : Option β) (u : τ) :
    Function.update f t (y.map F) u = (Function.update g t y u).map F := by
  by_cases hu : u = t
  · subst hu
    simp
  · simp [Function.update_of_ne hu, h u]

lemma Refines.view_call {ph : Phases τ ι ρ κ} {s s' : Threads σ τ ι ρ κ}
    {a : Object.Atomic ν τ ι ρ} {t : τ} {op : ι} (hI : I.Refines O Rel)
    (hv : View Rel ph s a) (h : I.next s (.call t op) = some s') :
    ∃ ph' a', (O.atomic τ).next a (.call t op) = some a' ∧ View Rel ph' s' a' := by
  obtain ⟨hrel, hcalls, hatomic, hhist⟩ := hv
  obtain ⟨hidle, k, hk, rfl⟩ := call_inv h
  have hph : ph t = none := by simpa [hcalls t] using hidle
  have ha : a.calls t = none := by simp [hatomic t, hph]
  refine ⟨Function.update ph t (some (op, k, none)), _, Object.next_call ha op,
    hI.call hrel hph hk, ?_, ?_, ?_⟩
  · exact map_update hcalls t (some (op, k, none))
  · exact map_update hatomic t (some (op, k, none))
  · simp only [hhist]

/-- A step of a call is an effect of its operation, or none, and then the return of the call,
or not. -/
lemma Refines.view_step {ph : Phases τ ι ρ κ} {s s' : Threads σ τ ι ρ κ}
    {a : Object.Atomic ν τ ι ρ} {t : τ} {choice : ω} (hI : I.Refines O Rel)
    (hv : View Rel ph s a) (h : I.next s (.step t choice) = some s') :
    ∃ ph' tr a', (O.atomic τ).Run a tr a' ∧ View Rel ph' s' a' := by
  obtain ⟨hrel, hcalls, hatomic, hhist⟩ := hv
  obtain ⟨op, k, q, r, hbusy, hr, rfl⟩ := step_inv h
  obtain ⟨done, hph⟩ : ∃ done, ph t = some (op, k, done) := by
    obtain ⟨⟨op', k', done⟩, hph, heq⟩ := Option.map_eq_some_iff.mp ((hcalls t).symm.trans hbusy)
    cases heq
    exact ⟨done, hph⟩
  obtain ⟨v', done', htaken, hret, hrel'⟩ := hI.step hrel hph hr
  have ha : a.calls t = some (op, done) := by simp [hatomic t, hph]
  -- the effect of the operation, if it takes effect now
  obtain ⟨tr, a₁, hrun, hvalue, hdone, hothers, hhist₁⟩ :
      ∃ tr a₁, (O.atomic τ).Run a tr a₁ ∧ a₁.value = v' ∧ a₁.calls t = some (op, done') ∧
        (∀ u, u ≠ t → a₁.calls u = a.calls u) ∧ a₁.history = a.history := by
    cases htaken with
    | stay => exact ⟨[], a, .nil a, rfl, ha, fun _ _ => rfl, rfl⟩
    | effect choice happly =>
      exact ⟨_, _, .single (Object.next_effect ha happly), rfl, by simp,
        fun u hu => by simp [Function.update_of_ne hu], rfl⟩
  cases r with
  | inl k' =>
    refine ⟨_, tr, a₁, hrun, ⟨hvalue ▸ hrel', ?_, fun u => ?_, ?_⟩⟩
    · exact map_update hcalls t (some (op, k', done'))
    · by_cases hu : u = t
      · subst hu
        simp [hdone]
      · simp [Function.update_of_ne hu, hothers u hu, hatomic u]
    · simp [hhist₁, hhist]
  | inr res =>
    obtain rfl := hret res rfl
    refine ⟨_, _, _, hrun.append (.single (Object.next_ret hdone)),
      ⟨hvalue ▸ hrel', ?_, fun u => ?_, ?_⟩⟩
    · exact map_update hcalls t none
    · by_cases hu : u = t
      · subst hu
        simp
      · simp [Function.update_of_ne hu, hothers u hu, hatomic u]
    · simp [hhist₁, hhist]

/-- In every reachable state the calls in progress are related to a value that the object
reaches in the same history. -/
theorem Refines.reachable (hI : I.Refines O Rel) {s : Threads σ τ ι ρ κ}
    (hs : I.machine.Reachable s) :
    ∃ ph a, (O.atomic τ).Reachable a ∧ Refines.View Rel ph s a := by
  refine hs.invariant (I := fun s => ∃ ph a, (O.atomic τ).Reachable a ∧
    Refines.View Rel ph s a) ?_ ?_
  · rintro s rfl
    exact ⟨fun _ => none, _, .of_init rfl, hI.init, fun _ => rfl, fun _ => rfl, rfl⟩
  · rintro s act s' ⟨ph, a, ha, hv⟩ h
    cases act with
    | call t op =>
      obtain ⟨ph', a', hnext, hv'⟩ := hI.view_call hv h
      exact ⟨ph', a', ha.next hnext, hv'⟩
    | step t choice =>
      obtain ⟨ph', tr, a', hrun, hv'⟩ := hI.view_step hv h
      exact ⟨ph', a', ha.run hrun, hv'⟩

/-- An implementation is safe when the relation lets every call in progress go on. -/
theorem Refines.safe (hI : I.Refines O Rel)
    (hstep : ∀ {s ph v t op k done choice}, Rel s ph v → ph t = some (op, k, done) →
      (I.step s k choice).isSome) : I.Safe := by
  intro s hs t op k choice hk
  obtain ⟨ph, a, -, hv⟩ := hI.reachable hs
  obtain ⟨⟨op', k', done⟩, hph, heq⟩ :=
    Option.map_eq_some_iff.mp ((hv.calls t).symm.trans hk)
  cases heq
  exact hstep hv.rel hph

/-- A call that runs alone has the effect of its operation. -/
theorem Refines.alone (hI : I.Refines O Rel) {choice : ω} {fuel : ℕ} {s s' : σ}
    {ph : Phases τ ι ρ κ} {v : ν} {t : τ} {op : ι} {k : κ} {done : Option ρ} {res : ρ}
    (hrel : Rel s ph v) (ht : ph t = some (op, k, done))
    (h : I.alone choice fuel s k = some (s', res)) :
    ∃ v', O.Taken v op done v' (some res) ∧ Rel s' (Function.update ph t none) v' := by
  induction fuel generalizing s ph v k done with
  | zero => cases h
  | succ fuel ih =>
    obtain ⟨⟨s₁, r⟩, hstep, h⟩ := Option.bind_eq_some_iff.mp h
    obtain ⟨v₁, done₁, htaken, hret, hrel₁⟩ := hI.step hrel ht hstep
    cases r with
    | inl k' =>
      have hph : Function.update ph t (some (op, k', done₁)) t = some (op, k', done₁) := by simp
      obtain ⟨v', htaken', hrel'⟩ := ih hrel₁ hph h
      exact ⟨v', htaken.trans htaken', by simpa using hrel'⟩
    | inr res' =>
      cases h
      obtain rfl := hret res rfl
      exact ⟨v₁, htaken, hrel₁⟩

/-- A thread calls an operation while no other thread is in a call. -/
theorem Refines.call_alone (hI : I.Refines O Rel) {choice : ω} {fuel : ℕ} {s s' : σ} {v : ν}
    {t : τ} {op : ι} {k : κ} {res : ρ} (hrel : Rel s (fun _ => none) v)
    (hk : I.call s t op = some k) (h : I.alone choice fuel s k = some (s', res)) :
    ∃ v' c, O.apply v op c = some (v', res) ∧ Rel s' (fun _ => none) v' := by
  obtain ⟨v', htaken, hrel'⟩ := hI.alone (hI.call hrel rfl hk) (Function.update_self ..) h
  obtain ⟨c, happly⟩ := htaken.apply_eq
  refine ⟨v', c, happly, ?_⟩
  rwa [Function.update_idem, Function.update_eq_self_iff.mpr rfl] at hrel'

/-- The rule: an implementation that refines an object is linearizable. -/
theorem Refines.linearizable (hI : I.Refines O Rel) : I.Linearizable O := by
  intro s hs
  obtain ⟨ph, a, ha, hv⟩ := hI.reachable hs
  exact ⟨a, ha, hv.history⟩

end Impl

end Steps
