import Mathlib

/-!
# Replaying a log

A *store* gives a value to every cell.  An entry of a log means a relation between the stores
before and after it, and `Replay m s log t` says that the entries of `log`, one after another,
lead from `s` to `t`.

An entry is *local* to a set of cells when it reads and writes those only.  Two entries that
are local to disjoint sets can change places (`Local.swap`).  So an entry that has been put
into the log before it is carried out, and that keeps the cells of the later entries away from
its own until then, is carried out as if in its place (`Replay.set`).
-/

namespace Steps

variable {C V E : Type*}

/-- The relation reads and writes the cells of `F` only. -/
structure Local (F : Set C) (r : (C → V) → (C → V) → Prop) : Prop where
  /-- The other cells are left alone. -/
  frame : ∀ {s t}, r s t → ∀ c ∉ F, t c = s c
  /-- What the other cells hold does not matter. -/
  transport : ∀ {s t s' t'}, r s t → (∀ c ∈ F, s' c = s c) → (∀ c ∈ F, t' c = t c) →
    (∀ c ∉ F, t' c = s' c) → r s' t'

lemma local_of_fun {F : Set C} {f : (C → V) → C → V} (hframe : ∀ s, ∀ c ∉ F, f s c = s c)
    (hcongr : ∀ s s', (∀ c ∈ F, s' c = s c) → ∀ c ∈ F, f s' c = f s c) :
    Local F fun s t => t = f s := by
  constructor
  · rintro s t rfl c hc
    exact hframe s c hc
  · rintro s t s' t' rfl hs ht hrest
    ext c
    by_cases hc : c ∈ F
    · rw [ht c hc, hcongr s s' hs c hc]
    · rw [hrest c hc, hframe s' c hc]

lemma Local.and {F : Set C} {r : (C → V) → (C → V) → Prop} {P : (C → V) → Prop}
    (hr : Local F r) (hP : ∀ s s', (∀ c ∈ F, s' c = s c) → P s → P s') :
    Local F fun s t => r s t ∧ P s := by
  constructor
  · rintro s t ⟨h, -⟩
    exact hr.frame h
  · rintro s t s' t' ⟨h, hs⟩ hs' ht' hrest
    exact ⟨hr.transport h hs' ht' hrest, hP s s' hs' hs⟩

/-- Relations that are local to disjoint sets of cells can change places. -/
lemma Local.swap {F G : Set C} {r q : (C → V) → (C → V) → Prop} (hr : Local F r)
    (hq : Local G q) (hdisj : Disjoint F G) {s u t : C → V} (h₁ : r s u) (h₂ : q u t) :
    ∃ v, q s v ∧ r v t := by
  classical
  have hF : ∀ c ∈ F, c ∉ G := fun c hc hc' => Set.disjoint_left.mp hdisj hc hc'
  -- `q` comes first: the cells of `G` are as in the end, the others as in the beginning
  refine ⟨fun c => if c ∈ G then t c else s c, hq.transport h₂ ?_ ?_ ?_,
    hr.transport h₁ ?_ ?_ ?_⟩
  · intro c hc
    exact (hr.frame h₁ c fun hc' => hF c hc' hc).symm
  · intro c hc
    exact if_pos hc
  · intro c hc
    exact if_neg hc
  · intro c hc
    exact if_neg (hF c hc)
  · intro c hc
    exact hq.frame h₂ c (hF c hc)
  · intro c hc
    by_cases hcG : c ∈ G
    · exact (if_pos hcG).symm
    · rw [if_neg hcG, hq.frame h₂ c hcG, hr.frame h₁ c hc]

/-- The entries of a log lead from one store to another. -/
inductive Replay (m : E → (C → V) → (C → V) → Prop) : (C → V) → List E → (C → V) → Prop
  | nil (s : C → V) : Replay m s [] s
  | cons {s u t : C → V} {e : E} {log : List E} :
      m e s u → Replay m u log t → Replay m s (e :: log) t

variable {m : E → (C → V) → (C → V) → Prop}

lemma replay_cons {s t : C → V} {e : E} {log : List E} :
    Replay m s (e :: log) t ↔ ∃ u, m e s u ∧ Replay m u log t := by
  constructor
  · intro h
    cases h with
    | cons he hlog => exact ⟨_, he, hlog⟩
  · rintro ⟨u, he, hlog⟩
    exact .cons he hlog

lemma replay_append {s t : C → V} {l₁ l₂ : List E} :
    Replay m s (l₁ ++ l₂) t ↔ ∃ u, Replay m s l₁ u ∧ Replay m u l₂ t := by
  induction l₁ generalizing s with
  | nil =>
    constructor
    · intro h
      exact ⟨s, .nil s, h⟩
    · rintro ⟨u, hs, h⟩
      cases hs
      exact h
  | cons e l₁ ih =>
    rw [List.cons_append, replay_cons]
    constructor
    · rintro ⟨u, he, h⟩
      obtain ⟨v, h₁, h₂⟩ := ih.mp h
      exact ⟨v, .cons he h₁, h₂⟩
    · rintro ⟨v, h₁, h₂⟩
      obtain ⟨u, he, h₁⟩ := replay_cons.mp h₁
      exact ⟨u, he, ih.mpr ⟨v, h₁, h₂⟩⟩

lemma Replay.snoc {s t u : C → V} {log : List E} {e : E} (h : Replay m s log t)
    (he : m e t u) : Replay m s (log ++ [e]) u :=
  replay_append.mpr ⟨t, h, .cons he (.nil u)⟩

/-- What is carried out after entries whose cells it leaves alone can be carried out before
them. -/
lemma Replay.pull {F : Set C} {q : (C → V) → (C → V) → Prop} {u t t' : C → V} {log : List E}
    (h : Replay m u log t) (hq : Local F q)
    (hlater : ∀ e ∈ log, ∃ G, Local G (m e) ∧ Disjoint G F) (ht : q t t') :
    ∃ u', q u u' ∧ Replay m u' log t' := by
  induction h with
  | nil s => exact ⟨t', ht, .nil t'⟩
  | cons he _ ih =>
    obtain ⟨v, hv, hlog⟩ := ih (fun e he => hlater e (List.mem_cons_of_mem _ he)) ht
    obtain ⟨G, hG, hdisj⟩ := hlater _ List.mem_cons_self
    obtain ⟨w, hw, hwv⟩ := hG.swap hq hdisj he hv
    exact ⟨w, hw, .cons hwv hlog⟩

/-- An entry of the log that has had no effect is replaced by one that is carried out now: if
the later entries keep away from its cells, it is carried out in its place. -/
lemma Replay.set {F : Set C} {s t t' : C → V} {log : List E} {n : ℕ} {e e' : E}
    (h : Replay m s log t) (hn : log[n]? = some e) (hskip : ∀ u v, m e u v → u = v)
    (he' : Local F (m e')) (hlater : ∀ k x, n < k → log[k]? = some x →
      ∃ G, Local G (m x) ∧ Disjoint G F) (ht : m e' t t') :
    Replay m s (log.set n e') t' := by
  obtain ⟨hlt, hget⟩ := List.getElem?_eq_some_iff.mp hn
  have hsplit : log = log.take n ++ e :: log.drop (n + 1) := by
    rw [← hget, List.getElem_cons_drop, List.take_append_drop]
  rw [hsplit] at h
  obtain ⟨u, h₁, h₂⟩ := replay_append.mp h
  obtain ⟨v, huv, h₂⟩ := replay_cons.mp h₂
  obtain rfl := hskip u v huv
  have hdrop : ∀ x ∈ log.drop (n + 1), ∃ G, Local G (m x) ∧ Disjoint G F := by
    intro x hx
    obtain ⟨k, hk⟩ := List.mem_iff_getElem?.mp hx
    rw [List.getElem?_drop] at hk
    exact hlater (n + 1 + k) x (by omega) hk
  obtain ⟨w, hw, hlog⟩ := h₂.pull he' hdrop ht
  rw [List.set_eq_take_append_cons_drop, if_pos hlt]
  exact replay_append.mpr ⟨u, h₁, .cons hw hlog⟩

end Steps
