import Mathlib

/-!
# Bit tricks

Rounding up to a power of two: to or a number with its own right shifts by 1, 2, 4, … spreads
its highest bit over all the bits below it (`Spread`), so that the next number is a power of
two (`Spread.succ_eq`).

Swapping two groups of bits by a mask and three exclusive ors (`swapGroups`): the map is its
own inverse, and it moves no number out of a range that ends at a power of two.
-/

namespace Steps

/-! ### Spreading bits -/

/-- A bit of `y` is set when one of the `m` bits of `x` from it upwards is. -/
def Spread (m x y : ℕ) : Prop := ∀ i, y.testBit i = true ↔ ∃ j < m, x.testBit (i + j) = true

namespace Spread

variable {m x y : ℕ}

lemma one (x : ℕ) : Spread 1 x x := by
  intro i
  constructor
  · intro h
    exact ⟨0, by omega, h⟩
  · rintro ⟨j, hj, h⟩
    obtain rfl : j = 0 := by omega
    exact h

lemma or_shiftRight (h : Spread m x y) : Spread (2 * m) x (y ||| y >>> m) := by
  intro i
  rw [Nat.testBit_or, Nat.testBit_shiftRight, Bool.or_eq_true, h i, h (m + i)]
  constructor
  · rintro (⟨j, hj, hbit⟩ | ⟨j, hj, hbit⟩)
    · exact ⟨j, by omega, hbit⟩
    · exact ⟨m + j, by omega, by rwa [show i + (m + j) = m + i + j by omega]⟩
  · rintro ⟨j, hj, hbit⟩
    by_cases hjm : j < m
    · exact Or.inl ⟨j, hjm, hbit⟩
    · exact Or.inr ⟨j - m, by omega, by rwa [show m + i + (j - m) = i + j by omega]⟩

/-- When the bits have been spread over the whole width, all bits below the highest one are
set. -/
lemma succ_eq (h : Spread m x y) (hx : x < 2 ^ m) : y + 1 = 2 ^ x.size := by
  have hy : y = 2 ^ x.size - 1 := by
    refine Nat.eq_of_testBit_eq fun i => ?_
    rw [Bool.eq_iff_iff, h i, Nat.testBit_two_pow_sub_one, decide_eq_true_iff, Nat.lt_size]
    constructor
    · rintro ⟨j, -, hbit⟩
      exact (Nat.pow_le_pow_right (by omega) (by omega)).trans (Nat.ge_two_pow_of_testBit hbit)
    · intro hi
      obtain ⟨k, hk, hbit⟩ := Nat.exists_ge_and_testBit_of_ge_two_pow hi
      refine ⟨k - i, ?_, by rwa [show i + (k - i) = k by omega]⟩
      have hkm : k < m := by
        by_contra hle
        rw [Nat.testBit_lt_two_pow (hx.trans_le (Nat.pow_le_pow_right (by omega) (by omega)))]
          at hbit
        cases hbit
      omega
  have hpos : 0 < 2 ^ x.size := Nat.two_pow_pos _
  omega

end Spread

lemma size_pred_eq_clog {a : ℕ} (ha : a ≠ 0) : (a - 1).size = Nat.clog 2 a := by
  refine eq_of_forall_ge_iff fun k => ?_
  rw [Nat.size_le, Nat.clog_le_iff_le_pow (by omega)]
  omega

/-! ### Swapping two groups of bits -/

/-- The lowest `b` bits of `x` change places with the next `b` bits. -/
def swapGroups {w : ℕ} (b : ℕ) (x : BitVec w) : BitVec w :=
  let mix := (x ^^^ (x >>> b)) &&& ((1#w <<< b) - 1#w)
  x ^^^ mix ^^^ (mix <<< b)

lemma getLsbD_mask {w b : ℕ} (hb : b < w) (i : ℕ) :
    ((1#w <<< b) - 1#w).getLsbD i = decide (i < b) := by
  have hpow : 2 ^ b < 2 ^ w := Nat.pow_lt_pow_right (by omega) hb
  have hpos : 0 < 2 ^ b := Nat.two_pow_pos b
  have hone : (1#w).toNat = 1 := by
    rw [BitVec.toNat_ofNat, Nat.mod_eq_of_lt (by omega)]
  have hshift : (1#w <<< b).toNat = 2 ^ b := by
    rw [BitVec.toNat_shiftLeft, hone, Nat.one_shiftLeft, Nat.mod_eq_of_lt hpow]
  have hmask : ((1#w <<< b) - 1#w).toNat = 2 ^ b - 1 := by
    rw [BitVec.toNat_sub, hshift, hone]
    rw [show 2 ^ w - 1 + 2 ^ b = 2 ^ b - 1 + 2 ^ w by omega, Nat.add_mod_right,
      Nat.mod_eq_of_lt (by omega)]
  rw [← BitVec.testBit_toNat, hmask, Nat.testBit_two_pow_sub_one]

/-- The bit that comes to the place `i`. -/
lemma getLsbD_swapGroups {w b : ℕ} (hb : 2 * b ≤ w) (x : BitVec w) {i : ℕ} (hi : i < w) :
    (swapGroups b x).getLsbD i =
      x.getLsbD (if i < b then i + b else if i < 2 * b then i - b else i) := by
  rcases Nat.eq_zero_or_pos b with rfl | hpos
  · simp [swapGroups]
  · have hmask := getLsbD_mask (show b < w by omega)
    simp only [swapGroups, BitVec.getLsbD_xor, BitVec.getLsbD_and, BitVec.getLsbD_shiftLeft,
      BitVec.getLsbD_ushiftRight, hmask]
    by_cases h₁ : i < b
    · simp [h₁, Nat.add_comm b i]
    · by_cases h₂ : i < 2 * b
      · have h₃ : i - b < b := by omega
        have h₄ : b + (i - b) = i := by omega
        have hxor : ∀ p q : Bool, (p ^^ (q ^^ p)) = q := by decide
        simp [h₁, h₂, h₃, h₄, hi, hxor]
      · have h₃ : ¬ i - b < b := by omega
        simp [h₁, h₂, h₃]

lemma swapGroups_swapGroups {w b : ℕ} (hb : 2 * b ≤ w) (x : BitVec w) :
    swapGroups b (swapGroups b x) = x := by
  refine BitVec.eq_of_getLsbD_eq fun i hi => ?_
  rw [getLsbD_swapGroups hb _ hi]
  by_cases h₁ : i < b
  · have h₂ : ¬ i + b < b := by omega
    have h₃ : i + b < 2 * b := by omega
    rw [if_pos h₁, getLsbD_swapGroups hb _ (by omega), if_neg h₂, if_pos h₃]
    congr 1
    omega
  · by_cases h₂ : i < 2 * b
    · have h₃ : i - b < b := by omega
      rw [if_neg h₁, if_pos h₂, getLsbD_swapGroups hb _ (by omega), if_pos h₃]
      congr 1
      omega
    · rw [if_neg h₁, if_neg h₂, getLsbD_swapGroups hb _ hi, if_neg h₁, if_neg h₂]

lemma swapGroups_lt {w b k : ℕ} (hb : 2 * b ≤ w) (hk : 2 * b ≤ k) {x : BitVec w}
    (hx : x.toNat < 2 ^ k) : (swapGroups b x).toNat < 2 ^ k := by
  refine Nat.lt_pow_two_of_testBit _ fun i hi => ?_
  by_cases hiw : i < w
  · rw [BitVec.testBit_toNat, getLsbD_swapGroups hb _ hiw, if_neg (by omega), if_neg (by omega),
      ← BitVec.testBit_toNat]
    exact Nat.testBit_lt_two_pow (hx.trans_le (Nat.pow_le_pow_right (by omega) hi))
  · rw [BitVec.testBit_toNat]
    exact BitVec.getLsbD_of_ge _ _ (by omega)

end Steps
