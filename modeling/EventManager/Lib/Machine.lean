import Mathlib

/-!
# Machines, runs and simulations

A *machine* is a set of starting states together with a partial function that says what
an action does in a state.  Threads that run side by side are one machine: an action
names the thread that moves, so that a list of actions is a schedule, and a statement
about all schedules is a statement about all interleavings.

* `Machine.Run s tr t`: the machine gets from `s` to `t` by the steps of the trace `tr`;
* `Machine.Reachable`: the states that are visited by some run from a starting state;
* `Machine.exec`: the state after a schedule, computed;
* `Simulation`: every step of one machine is a step of another one, or no step of it.
-/

namespace Steps

/-- A machine: the states in which it may start, and the effect of an action, `none`
when the action cannot be taken. -/
structure Machine (σ α : Type*) where
  /-- The starting states. -/
  init : σ → Prop
  /-- The state after an action. -/
  next : σ → α → Option σ

namespace Machine

variable {σ α : Type*} (M : Machine σ α)

/-- `M.Run s tr t`: the machine gets from `s` to `t` by the steps of `tr`.  A step is
recorded as the state it is taken in and the action. -/
inductive Run : σ → List (σ × α) → σ → Prop
  | nil (s : σ) : Run s [] s
  | snoc {s t u : σ} {tr : List (σ × α)} {a : α} :
      Run s tr t → M.next t a = some u → Run s (tr ++ [(t, a)]) u

/-- The states of the runs from a starting state. -/
def Reachable (t : σ) : Prop := ∃ s tr, M.init s ∧ M.Run s tr t

variable {M}

/-! ### Runs -/

lemma Run.single {s t : σ} {a : α} (h : M.next s a = some t) : M.Run s [(s, a)] t :=
  .snoc (.nil s) h

lemma Run.append {s t u : σ} {tr tr' : List (σ × α)} (h : M.Run s tr t)
    (h' : M.Run t tr' u) : M.Run s (tr ++ tr') u := by
  induction h' with
  | nil => simpa using h
  | snoc _ ha ih => rw [← List.append_assoc]; exact .snoc ih ha

lemma Run.cons {s t u : σ} {a : α} {tr : List (σ × α)} (h : M.next s a = some t)
    (h' : M.Run t tr u) : M.Run s ((s, a) :: tr) u :=
  (Run.single h).append h'

lemma Run.eq_of_nil {s t : σ} (h : M.Run s [] t) : s = t := by
  generalize htr : ([] : List (σ × α)) = tr at h
  cases h with
  | nil => rfl
  | snoc _ _ => simp at htr

lemma Run.snoc_inv {s u : σ} {tr : List (σ × α)} {p : σ × α} (h : M.Run s (tr ++ [p]) u) :
    M.Run s tr p.1 ∧ M.next p.1 p.2 = some u := by
  generalize htr : tr ++ [p] = tr' at h
  cases h with
  | nil => simp at htr
  | snoc hr ha =>
    obtain ⟨rfl, rfl⟩ := List.append_inj' htr (by simp) |>.imp_right List.singleton_inj.mp
    exact ⟨hr, ha⟩

lemma Run.split_append {s u : σ} {tr₁ tr₂ : List (σ × α)} (h : M.Run s (tr₁ ++ tr₂) u) :
    ∃ t, M.Run s tr₁ t ∧ M.Run t tr₂ u := by
  induction tr₂ using List.reverseRecOn generalizing u with
  | nil => exact ⟨u, by simpa using h, .nil u⟩
  | append_singleton tr₂ p ih =>
    rw [← List.append_assoc] at h
    obtain ⟨hr, hp⟩ := h.snoc_inv
    obtain ⟨t, h₁, h₂⟩ := ih hr
    exact ⟨t, h₁, .snoc h₂ hp⟩

lemma Run.cons_inv {s u : σ} {p : σ × α} {tr : List (σ × α)} (h : M.Run s (p :: tr) u) :
    p.1 = s ∧ ∃ t, M.next s p.2 = some t ∧ M.Run t tr u := by
  have hcat : M.Run s ([p] ++ tr) u := h
  obtain ⟨t, h₁, h₂⟩ := hcat.split_append
  have hone : M.Run s ([] ++ [p]) t := h₁
  obtain ⟨hr, hp⟩ := hone.snoc_inv
  obtain rfl := hr.eq_of_nil
  exact ⟨rfl, t, hp, h₂⟩

/-- A property that the steps meeting `C` preserve holds at the end of every run of such
steps. -/
lemma Run.invariant {I : σ → Prop} {C : σ → α → Prop}
    (hstep : ∀ s a t, I s → C s a → M.next s a = some t → I t)
    {s t : σ} {tr : List (σ × α)} (h : M.Run s tr t) (hC : ∀ p ∈ tr, C p.1 p.2)
    (hs : I s) : I t := by
  induction h with
  | nil => exact hs
  | @snoc t u tr a _ ha ih =>
    exact hstep t a u (ih fun p hp => hC p (by simp [hp])) (hC (t, a) (by simp)) ha

/-- The states that a run passes through are ends of shorter runs. -/
lemma Run.visited {s t : σ} {tr : List (σ × α)} (h : M.Run s tr t) {p : σ × α}
    (hp : p ∈ tr) :
    ∃ tr₁ tr₂, tr = tr₁ ++ p :: tr₂ ∧ M.Run s tr₁ p.1 ∧ M.Run p.1 (p :: tr₂) t := by
  obtain ⟨tr₁, tr₂, rfl⟩ := List.append_of_mem hp
  obtain ⟨u, h₁, h₂⟩ := h.split_append
  obtain rfl := h₂.cons_inv.1
  exact ⟨tr₁, tr₂, rfl, h₁, h₂⟩

lemma Run.next_of_mem {s t : σ} {tr : List (σ × α)} (h : M.Run s tr t) {p : σ × α}
    (hp : p ∈ tr) : ∃ u, M.next p.1 p.2 = some u ∧ (u = t ∨ ∃ q ∈ tr, q.1 = u) := by
  obtain ⟨tr₁, tr₂, rfl, -, h₂⟩ := h.visited hp
  obtain ⟨-, u, hu, hrest⟩ := h₂.cons_inv
  refine ⟨u, hu, ?_⟩
  cases tr₂ with
  | nil => exact Or.inl hrest.eq_of_nil
  | cons q tr₂ => exact Or.inr ⟨q, by simp, hrest.cons_inv.1⟩

lemma Run.invariant_mem {I : σ → Prop} {C : σ → α → Prop}
    (hstep : ∀ s a t, I s → C s a → M.next s a = some t → I t)
    {s t : σ} {tr : List (σ × α)} (h : M.Run s tr t) (hC : ∀ p ∈ tr, C p.1 p.2)
    (hs : I s) {p : σ × α} (hp : p ∈ tr) : I p.1 := by
  obtain ⟨tr₁, tr₂, rfl, h₁, -⟩ := h.visited hp
  exact h₁.invariant hstep (fun q hq => hC q (by simp [hq])) hs

/-! ### Reachable states -/

lemma Reachable.of_init {s : σ} (h : M.init s) : M.Reachable s := ⟨s, [], h, .nil s⟩

lemma Reachable.next {s t : σ} {a : α} (h : M.Reachable s) (ha : M.next s a = some t) :
    M.Reachable t := by
  obtain ⟨s₀, tr, h₀, hr⟩ := h
  exact ⟨s₀, _, h₀, .snoc hr ha⟩

lemma Reachable.run {s t : σ} {tr : List (σ × α)} (h : M.Reachable s) (hr : M.Run s tr t) :
    M.Reachable t := by
  obtain ⟨s₀, tr₀, h₀, hr₀⟩ := h
  exact ⟨s₀, _, h₀, hr₀.append hr⟩

/-- The invariant rule: what holds in the starting states and is preserved by every step
holds in every reachable state. -/
theorem Reachable.invariant {I : σ → Prop} (hinit : ∀ s, M.init s → I s)
    (hstep : ∀ s a t, I s → M.next s a = some t → I t) {t : σ} (h : M.Reachable t) :
    I t := by
  obtain ⟨s, tr, hs, hr⟩ := h
  exact hr.invariant (C := fun _ _ => True) (fun s a t hI _ => hstep s a t hI)
    (fun _ _ => trivial) (hinit s hs)

/-- The invariant rule for a step that rests on other facts about reachable states. -/
theorem Reachable.invariant_of_reachable {I : σ → Prop} (hinit : ∀ s, M.init s → I s)
    (hstep : ∀ s a t, M.Reachable s → I s → M.next s a = some t → I t) {t : σ}
    (h : M.Reachable t) : I t := by
  have hboth : M.Reachable t ∧ I t := by
    refine h.invariant (I := fun s => M.Reachable s ∧ I s) ?_ ?_
    · intro s hs
      exact ⟨.of_init hs, hinit s hs⟩
    · rintro s a t ⟨hs, hI⟩ ha
      exact ⟨hs.next ha, hstep s a t hs hI ha⟩
  exact hboth.2

/-- A machine that can go round once more from wherever it has gone round `n` times can go
round any number of times. -/
lemma exists_reachable_rounds {I : ℕ → σ → Prop} (hstart : ∃ s, M.Reachable s ∧ I 0 s)
    (hround : ∀ n s, M.Reachable s → I n s → ∃ t, M.Reachable t ∧ I (n + 1) t) (n : ℕ) :
    ∃ s, M.Reachable s ∧ I n s := by
  induction n with
  | zero => exact hstart
  | succ n ih =>
    obtain ⟨s, hs, hI⟩ := ih
    exact hround n s hs hI

/-- A machine that can take a step which lowers a rank, wherever it has not come to `G`, comes
to `G`. -/
lemma Reachable.exists_run_of_rank {P G : σ → Prop} {C : σ → α → Prop} (rank : σ → ℕ)
    (hstep : ∀ s, M.Reachable s → P s → ¬ G s →
      ∃ a t, C s a ∧ M.next s a = some t ∧ P t ∧ rank t < rank s)
    {s : σ} (h : M.Reachable s) (hP : P s) :
    ∃ tr t, M.Run s tr t ∧ (∀ p ∈ tr, C p.1 p.2) ∧ P t ∧ G t := by
  induction hr : rank s using Nat.strong_induction_on generalizing s with
  | _ r ih =>
    by_cases hG : G s
    · exact ⟨[], s, .nil s, by simp, hP, hG⟩
    · obtain ⟨a, t, hC, ha, hPt, hlt⟩ := hstep s h hP hG
      obtain ⟨tr, u, hrun, htr, hu⟩ := ih (rank t) (hr ▸ hlt) (h.next ha) hPt rfl
      refine ⟨(s, a) :: tr, u, .cons ha hrun, ?_, hu⟩
      intro p hp
      rcases List.mem_cons.mp hp with rfl | hp
      · exact hC
      · exact htr p hp

/-! ### Computed runs -/

variable (M)

/-- The state after a schedule. -/
def exec (s : σ) : List α → Option σ
  | [] => some s
  | a :: as => (M.next s a).bind fun t => exec t as

/-- The steps of a schedule. -/
def trace (s : σ) : List α → List (σ × α)
  | [] => []
  | a :: as => (s, a) :: match M.next s a with
    | some t => trace t as
    | none => []

variable {M}

lemma run_of_exec {s t : σ} {as : List α} (h : M.exec s as = some t) :
    M.Run s (M.trace s as) t := by
  induction as generalizing s with
  | nil =>
    obtain rfl : s = t := by simpa [exec] using h
    exact .nil s
  | cons a as ih =>
    obtain ⟨u, hu, h⟩ := Option.bind_eq_some_iff.mp h
    rw [trace, hu]
    exact .cons hu (ih h)

lemma Reachable.exec {s t : σ} {as : List α} (h : M.Reachable s)
    (hx : M.exec s as = some t) : M.Reachable t :=
  h.run (run_of_exec hx)

end Machine

/-! ### Sums over the threads -/

/-- When one thread moves, a sum over the threads changes by what that thread adds to it. -/
lemma sum_update_add {ι β M : Type*} [DecidableEq ι] [AddCommMonoid M] {S : Finset ι} {i : ι}
    (hi : i ∈ S) (g : ι → β) (f : β → M) (b : β) :
    ∑ j ∈ S, f (Function.update g i b j) + f (g i) = ∑ j ∈ S, f (g j) + f b := by
  have hrest : ∑ j ∈ S.erase i, f (Function.update g i b j) = ∑ j ∈ S.erase i, f (g j) := by
    refine Finset.sum_congr rfl fun j hj => ?_
    rw [Function.update_of_ne (Finset.ne_of_mem_erase hj)]
  rw [← Finset.add_sum_erase S _ hi, ← Finset.add_sum_erase S (fun j => f (g j)) hi, hrest,
    Function.update_self]
  abel

/-! ### Simulations -/

/-- `R` relates the states of `M` to the states of `N` in such a way that every step of
`M` is matched by a step of `N`, or leaves `N` where it is. -/
structure Simulation {σ α τ β : Type*} (M : Machine σ α) (N : Machine τ β)
    (R : σ → τ → Prop) : Prop where
  init : ∀ s, M.init s → ∃ t, N.init t ∧ R s t
  step : ∀ s a s' t, R s t → M.next s a = some s' →
    R s' t ∨ ∃ b t', N.next t b = some t' ∧ R s' t'

/-- Every reachable state of the simulated machine is related to a reachable state of the
simulating one. -/
theorem Simulation.reachable {σ α τ β : Type*} {M : Machine σ α} {N : Machine τ β}
    {R : σ → τ → Prop} (h : Simulation M N R) {s : σ} (hs : M.Reachable s) :
    ∃ t, N.Reachable t ∧ R s t := by
  refine hs.invariant (I := fun s => ∃ t, N.Reachable t ∧ R s t) ?_ ?_
  · intro s hinit
    obtain ⟨t, ht, hR⟩ := h.init s hinit
    exact ⟨t, .of_init ht, hR⟩
  · rintro s a s' ⟨t, ht, hR⟩ ha
    rcases h.step s a s' t hR ha with hR' | ⟨b, t', hb, hR'⟩
    · exact ⟨t, ht, hR'⟩
    · exact ⟨t', ht.next hb, hR'⟩

end Steps
