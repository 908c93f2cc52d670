import Mathlib

/-!
# Raw storage and rings of slots

Raw storage has slots in which objects are constructed and destroyed.  To construct an object
in a slot that is not raw, or outside of the storage, is refused, and so is to read, to assign
or to destroy an object where there is none.

A ring is a part of a storage that is walked through in circles.  What it holds is a list that
starts at some slot: `Window n f r xs` says that the `n` slots of `f`, from the slot `r` on,
hold the elements of `xs` and are raw after them.
-/

namespace Steps

/-- Storage for `length` objects. -/
structure Slots (α : Type*) where
  /-- The number of slots. -/
  length : ℕ
  /-- The objects in the slots; a slot without one is raw. -/
  cell : ℕ → Option α
  lt_of_cell : ∀ i, cell i ≠ none → i < length

namespace Slots

variable {α : Type*}

/-- Storage as it is allocated. -/
def raw (length : ℕ) : Slots α := ⟨length, fun _ => none, by simp⟩

/-- An object is constructed in a raw slot. -/
def construct (s : Slots α) (i : ℕ) (x : α) : Option (Slots α) :=
  if h : i < s.length ∧ (s.cell i).isNone then
    some {
      length := s.length
      cell := Function.update s.cell i (some x)
      lt_of_cell := by
        intro j hj
        by_cases hij : j = i
        · subst hij
          exact h.1
        · rw [Function.update_of_ne hij] at hj
          exact s.lt_of_cell j hj }
  else none

/-- An object is assigned to. -/
def assign (s : Slots α) (i : ℕ) (x : α) : Option (Slots α) :=
  if h : (s.cell i).isSome then
    some {
      length := s.length
      cell := Function.update s.cell i (some x)
      lt_of_cell := by
        intro j hj
        by_cases hij : j = i
        · subst hij
          exact s.lt_of_cell j (Option.isSome_iff_ne_none.mp h)
        · rw [Function.update_of_ne hij] at hj
          exact s.lt_of_cell j hj }
  else none

/-- An object is destroyed. -/
def destroy (s : Slots α) (i : ℕ) : Option (Slots α) :=
  if (s.cell i).isSome then
    some {
      length := s.length
      cell := Function.update s.cell i none
      lt_of_cell := by
        intro j hj
        by_cases hij : j = i
        · subst hij
          simp at hj
        · rw [Function.update_of_ne hij] at hj
          exact s.lt_of_cell j hj }
  else none

variable {s : Slots α} {i : ℕ}

lemma construct_of_raw (hi : i < s.length) (hraw : s.cell i = none) (x : α) :
    ∃ s', s.construct i x = some s' ∧ s'.length = s.length ∧
      s'.cell = Function.update s.cell i (some x) := by
  have h : i < s.length ∧ (s.cell i).isNone := ⟨hi, by simp [hraw]⟩
  exact ⟨_, dif_pos h, rfl, rfl⟩

lemma assign_of_cell {y : α} (hy : s.cell i = some y) (x : α) :
    ∃ s', s.assign i x = some s' ∧ s'.length = s.length ∧
      s'.cell = Function.update s.cell i (some x) := by
  have h : (s.cell i).isSome := by simp [hy]
  exact ⟨_, dif_pos h, rfl, rfl⟩

lemma destroy_of_cell {y : α} (hy : s.cell i = some y) :
    ∃ s', s.destroy i = some s' ∧ s'.length = s.length ∧
      s'.cell = Function.update s.cell i none := by
  have h : (s.cell i).isSome := by simp [hy]
  exact ⟨_, if_pos h, rfl, rfl⟩

end Slots

/-! ### Rings -/

namespace Ring

variable {α : Type*} {n r i d : ℕ}

lemma add_mod_eq (hr : r < n) (hd : d ≤ n) :
    (r + d) % n = if r + d < n then r + d else r + d - n := by
  split
  · rw [Nat.mod_eq_of_lt (by omega)]
  · rw [Nat.mod_eq_sub_mod (by omega), Nat.mod_eq_of_lt (by omega)]

lemma dist_eq (hr : r < n) (hi : i < n) :
    (i + n - r) % n = if r ≤ i then i - r else i + n - r := by
  split
  · rw [Nat.mod_eq_sub_mod (by omega), Nat.mod_eq_of_lt (by omega)]
    omega
  · rw [Nat.mod_eq_of_lt (by omega)]

lemma dist_eq_iff (hr : r < n) (hi : i < n) (hd : d < n) :
    (i + n - r) % n = d ↔ i = (r + d) % n := by
  rw [dist_eq hr hi, add_mod_eq hr hd.le]
  split <;> split <;> omega

lemma dist_succ (hr : r < n) (hi : i < n) (hne : i ≠ r) :
    (i + n - r) % n = (i + n - (r + 1) % n) % n + 1 := by
  have hn : (r + 1) % n < n := Nat.mod_lt _ (by omega)
  rw [dist_eq hr hi, dist_eq hn hi, add_mod_eq hr (by omega)]
  split <;> split <;> split <;> omega

/-- The `n` slots of `f`, from the slot `r` on, hold the elements of `xs`, and are raw after
them. -/
def Window (n : ℕ) (f : ℕ → Option α) (r : ℕ) (xs : List α) : Prop :=
  ∀ i < n, f i = xs[(i + n - r) % n]?

namespace Window

variable {f : ℕ → Option α} {xs : List α} {x : α}

lemma get (h : Window n f r xs) (hr : r < n) (hd : d < n) : f ((r + d) % n) = xs[d]? := by
  have hi : (r + d) % n < n := Nat.mod_lt _ (by omega)
  rw [h _ hi, (dist_eq_iff hr hi hd).mpr rfl]

lemma free (h : Window n f r xs) (hr : r < n) (hlen : xs.length < n) :
    f ((r + xs.length) % n) = none := by
  rw [h.get hr hlen]
  simp

lemma head (h : Window n f r (x :: xs)) (hr : r < n) : f r = some x := by
  have hget := h.get hr (d := 0) (by omega)
  rwa [Nat.add_zero, Nat.mod_eq_of_lt hr] at hget

lemma raw (n r : ℕ) : Window n (fun _ => (none : Option α)) r [] := by
  intro i _
  simp

/-- An element is constructed after the others. -/
lemma push (h : Window n f r xs) (hr : r < n) (hlen : xs.length < n) (x : α) :
    Window n (Function.update f ((r + xs.length) % n) (some x)) r (xs ++ [x]) := by
  intro i hi
  by_cases hlast : i = (r + xs.length) % n
  · have hd := (dist_eq_iff hr hi hlen).mpr hlast
    rw [hlast, Function.update_self, ← hlast, hd]
    simp
  · have hd : (i + n - r) % n ≠ xs.length := fun hd => hlast ((dist_eq_iff hr hi hlen).mp hd)
    rw [Function.update_of_ne hlast, h i hi, List.getElem?_append]
    split
    · rfl
    · rw [List.getElem?_eq_none (by omega), List.getElem?_eq_none (by simp; omega)]

lemma congr {g : ℕ → Option α} (h : Window n f r xs) (hfg : ∀ i < n, g i = f i) :
    Window n g r xs := fun i hi => (hfg i hi).trans (h i hi)

lemma set (h : Window n f r xs) (hr : r < n) (hd : d < n) (hlen : d < xs.length) (y : α) :
    Window n (Function.update f ((r + d) % n) (some y)) r (xs.set d y) := by
  intro i hi
  have hiff := dist_eq_iff hr hi hd
  by_cases hslot : i = (r + d) % n
  · have hdist := hiff.mpr hslot
    rw [hslot, Function.update_self, ← hslot, hdist, List.getElem?_set_self hlen]
  · have hdist : d ≠ (i + n - r) % n := fun hdist => hslot (hiff.mp hdist.symm)
    rw [Function.update_of_ne hslot, h i hi, List.getElem?_set_ne hdist]

lemma set_head (h : Window n f r (x :: xs)) (hr : r < n) (y : α) :
    Window n (Function.update f r (some y)) r (y :: xs) := by
  have hset := h.set hr (show 0 < n by omega) (by simp) y
  rwa [Nat.add_zero, Nat.mod_eq_of_lt hr] at hset

/-- The first element is destroyed. -/
lemma pop (h : Window n f r (x :: xs)) (hr : r < n) (hlen : xs.length < n) :
    Window n (Function.update f r none) ((r + 1) % n) xs := by
  intro i hi
  by_cases hfirst : i = r
  · subst hfirst
    have hn : (i + 1) % n < n := Nat.mod_lt _ (by omega)
    have hd : (i + n - (i + 1) % n) % n = n - 1 := by
      rw [dist_eq hn hi, add_mod_eq hi (by omega)]
      split <;> split <;> omega
    rw [Function.update_self, hd, List.getElem?_eq_none (by omega)]
  · rw [Function.update_of_ne hfirst, h i hi, dist_succ hr hi hfirst]
    rfl

end Window

end Ring

end Steps
