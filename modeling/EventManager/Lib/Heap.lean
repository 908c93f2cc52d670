import Mathlib

/-!
# A store of nodes with allocation and deletion

A heap hands out addresses in order and never twice, so a pointer to a deleted node stays
dangling: reading, writing or deleting through it is refused.  A heap carries the account
of its nodes: each address that was handed out is live or has been deleted, and none was
deleted twice.
-/

namespace Steps

/-- A store of nodes of type `α`. -/
structure Heap (α : Type*) where
  /-- The nodes in the store, by address. -/
  cell : ℕ → Option α
  /-- The next address to be handed out. -/
  fresh : ℕ
  /-- The addresses of the deleted nodes, in the order of their deletion. -/
  freed : List ℕ
  lt_of_cell : ∀ a, cell a ≠ none → a < fresh
  mem_freed : ∀ a, a ∈ freed ↔ a < fresh ∧ cell a = none
  nodup_freed : freed.Nodup

namespace Heap

variable {α : Type*} (h : Heap α)

/-- The address of a node that is in the store. -/
def Live (a : ℕ) : Prop := h.cell a ≠ none

/-- The store before any allocation. -/
def empty : Heap α := ⟨fun _ => none, 0, [], by simp, by simp, by simp⟩

lemma lt_fresh {a : ℕ} (ha : h.Live a) : a < h.fresh := h.lt_of_cell a ha

lemma not_live_fresh : ¬ h.Live h.fresh := fun hf => Nat.lt_irrefl _ (h.lt_fresh hf)

/-- `new`: a node at the next address. -/
def alloc (x : α) : Heap α where
  cell := Function.update h.cell h.fresh (some x)
  fresh := h.fresh + 1
  freed := h.freed
  lt_of_cell a ha := by
    by_cases hf : a = h.fresh
    · omega
    · rw [Function.update_of_ne hf] at ha
      have := h.lt_of_cell a ha
      omega
  mem_freed a := by
    rw [h.mem_freed]
    by_cases hf : a = h.fresh
    · subst hf; simp
    · rw [Function.update_of_ne hf]
      constructor
      · rintro ⟨hlt, hnone⟩; exact ⟨by omega, hnone⟩
      · rintro ⟨hlt, hnone⟩; exact ⟨by omega, hnone⟩
  nodup_freed := h.nodup_freed

/-- A write to a node in the store. -/
def set (a : ℕ) (x : α) (ha : h.Live a) : Heap α where
  cell := Function.update h.cell a (some x)
  fresh := h.fresh
  freed := h.freed
  lt_of_cell b hb := by
    by_cases hf : b = a
    · subst hf; exact h.lt_fresh ha
    · rw [Function.update_of_ne hf] at hb
      exact h.lt_of_cell b hb
  mem_freed b := by
    rw [h.mem_freed]
    by_cases hf : b = a
    · subst hf
      simp only [Function.update_self, reduceCtorEq, and_false, iff_false, not_and]
      exact fun _ => ha
    · rw [Function.update_of_ne hf]
  nodup_freed := h.nodup_freed

/-- `delete` of a node in the store. -/
def remove (a : ℕ) (ha : h.Live a) : Heap α where
  cell := Function.update h.cell a none
  fresh := h.fresh
  freed := h.freed ++ [a]
  lt_of_cell b hb := by
    by_cases hf : b = a
    · subst hf; simp at hb
    · rw [Function.update_of_ne hf] at hb
      exact h.lt_of_cell b hb
  mem_freed b := by
    rw [List.mem_append, h.mem_freed, List.mem_singleton]
    by_cases hf : b = a
    · subst hf
      simp only [or_true, Function.update_self, and_true, true_iff]
      exact h.lt_fresh ha
    · simp [hf]
  nodup_freed := by
    rw [List.nodup_append]
    refine ⟨h.nodup_freed, by simp, ?_⟩
    intro b hb c hc hbc
    rw [List.mem_singleton] at hc
    subst hc
    subst hbc
    exact ha ((h.mem_freed b).mp hb).2

instance (a : ℕ) : Decidable (h.Live a) :=
  match hc : h.cell a with
  | none => isFalse fun hl => hl hc
  | some _ => isTrue fun hn => by rw [hc] at hn; cases hn

/-- A read-modify-write through a pointer; refused when the pointer dangles. -/
def modify (a : ℕ) (f : α → α) : Option (Heap α) :=
  match hc : h.cell a with
  | none => none
  | some x => some (h.set a (f x) (by rw [Live, hc]; simp))

/-- `delete` through a pointer; refused when the pointer dangles. -/
def delete (a : ℕ) : Option (Heap α) :=
  if ha : h.Live a then some (h.remove a ha) else none

/-! ### What the operations do -/

variable {h} {h' : Heap α} {a b : ℕ}

lemma live_iff : h.Live a ↔ ∃ x, h.cell a = some x := Option.ne_none_iff_exists'

@[simp] lemma alloc_fresh (x : α) : (h.alloc x).fresh = h.fresh + 1 := rfl

@[simp] lemma alloc_cell_self (x : α) : (h.alloc x).cell h.fresh = some x := by simp [alloc]

lemma alloc_cell_of_ne (x : α) (ha : a ≠ h.fresh) : (h.alloc x).cell a = h.cell a := by
  simp [alloc, Function.update_of_ne ha]

lemma alloc_cell_of_live (x : α) (ha : h.Live a) : (h.alloc x).cell a = h.cell a :=
  alloc_cell_of_ne x fun hf => h.not_live_fresh (hf ▸ ha)

lemma live_alloc {x : α} : (h.alloc x).Live a ↔ a = h.fresh ∨ h.Live a := by
  by_cases ha : a = h.fresh
  · subst ha; simp [Live]
  · simp [Live, alloc_cell_of_ne x ha, ha]

lemma modify_eq_some {f : α → α} (hm : h.modify a f = some h') :
    ∃ x, h.cell a = some x ∧ h'.cell = Function.update h.cell a (some (f x)) ∧
      h'.fresh = h.fresh ∧ h'.freed = h.freed := by
  unfold modify at hm
  split at hm
  · cases hm
  · rename_i x hc
    obtain rfl := Option.some.inj hm
    exact ⟨x, hc, rfl, rfl, rfl⟩

lemma modify_cell_of_ne {f : α → α} (hm : h.modify a f = some h') (hb : b ≠ a) :
    h'.cell b = h.cell b := by
  obtain ⟨x, -, hcell, -, -⟩ := modify_eq_some hm
  rw [hcell, Function.update_of_ne hb]

lemma live_modify {f : α → α} (hm : h.modify a f = some h') : h'.Live b ↔ h.Live b := by
  obtain ⟨x, hx, hcell, -, -⟩ := modify_eq_some hm
  by_cases hb : b = a
  · subst hb
    simp [Live, hcell, hx]
  · rw [Live, Live, modify_cell_of_ne hm hb]

lemma exists_modify (f : α → α) (ha : h.Live a) : ∃ h', h.modify a f = some h' := by
  unfold modify
  split
  · rename_i hc; exact absurd hc ha
  · exact ⟨_, rfl⟩

lemma delete_eq_some (hd : h.delete a = some h') :
    h.Live a ∧ h'.cell = Function.update h.cell a none ∧ h'.fresh = h.fresh ∧
      h'.freed = h.freed ++ [a] := by
  unfold delete at hd
  split at hd
  · rename_i ha
    obtain rfl := Option.some.inj hd
    exact ⟨ha, rfl, rfl, rfl⟩
  · cases hd

lemma delete_cell_of_ne (hd : h.delete a = some h') (hb : b ≠ a) : h'.cell b = h.cell b := by
  obtain ⟨-, hcell, -, -⟩ := delete_eq_some hd
  rw [hcell, Function.update_of_ne hb]

lemma delete_of_live (ha : h.Live a) : h.delete a = some (h.remove a ha) := dif_pos ha

/-- When nothing is live, every address that was handed out has been deleted, once. -/
lemma mem_freed_of_no_live (hl : ∀ a, ¬ h.Live a) (a : ℕ) : a ∈ h.freed ↔ a < h.fresh := by
  rw [h.mem_freed]
  have hnone : h.cell a = none := not_not.mp (hl a)
  simp [hnone]

end Heap

end Steps
