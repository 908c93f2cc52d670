import EventManager.AtomicQueueB2.Basic

/-!
# The slots of the AtomicQueueB2

The constructor rounds the size up to a power of two, so that the slots of the tickets go round
in a circle, also where the tickets wrap around; `remap_index` walks through the circle in
another order (`index_bijOn`).
-/

namespace EventManager.AtomicQueueB2

open Steps

variable {T : Type}

/-! ### The size -/

lemma toNat_orEqual (x : BitVec 32) (u : ℕ) :
    (orEqual x u).toNat = x.toNat ||| x.toNat >>> u := by
  simp [orEqual]

lemma toNat_roundUp (a : BitVec 32) :
    (roundUpToPowerOf2 a).toNat = 2 ^ (a - 1).toNat.size % 2 ^ 32 := by
  have hspread : Spread 32 (a - 1).toNat
      (orEqual (orEqual (orEqual (orEqual (orEqual (a - 1) 1) 2) 4) 8) 16).toNat := by
    simp only [toNat_orEqual]
    exact (Spread.one _).or_shiftRight.or_shiftRight.or_shiftRight.or_shiftRight.or_shiftRight
  rw [roundUpToPowerOf2, BitVec.toNat_add, ← hspread.succ_eq (a - 1).isLt]
  rfl

lemma roundUp_of_le {a : BitVec 32} (hpos : a.toNat ≠ 0) (ha : a.toNat ≤ 2 ^ 31) :
    (roundUpToPowerOf2 a).toNat = 2 ^ Nat.clog 2 a.toNat := by
  have hpred : (a - 1).toNat = a.toNat - 1 := by
    rw [BitVec.toNat_sub_of_le (by rw [BitVec.le_def]; show 1 ≤ a.toNat; omega)]
    rfl
  have hclog : Nat.clog 2 a.toNat ≤ 31 := (Nat.clog_le_iff_le_pow (by omega)).mpr ha
  rw [toNat_roundUp, hpred, size_pred_eq_clog hpos,
    Nat.mod_eq_of_lt (Nat.pow_lt_pow_right (by omega) (by omega))]

lemma roundUp_of_lt {a : BitVec 32} (ha : a.toNat = 0 ∨ 2 ^ 31 < a.toNat) :
    (roundUpToPowerOf2 a).toNat = 0 := by
  have hlow : 2 ^ 31 ≤ (a - 1).toNat := by
    rw [BitVec.toNat_sub]
    have hone : (1 : BitVec 32).toNat = 1 := rfl
    have hlt := a.isLt
    rw [hone]
    rcases ha with ha | ha
    · simp [ha]
    · rw [show 2 ^ 32 - 1 + a.toNat = a.toNat - 1 + 2 ^ 32 by omega, Nat.add_mod_right,
        Nat.mod_eq_of_lt (by omega)]
      omega
  have hsize : (a - 1).toNat.size = 32 := by
    refine le_antisymm (Nat.size_le.mpr (a - 1).isLt) ?_
    by_contra hlt
    have hle : (a - 1).toNat.size ≤ 31 := by omega
    have := Nat.size_le.mp hle
    omega
  rw [toNat_roundUp, hsize, Nat.mod_self]

variable [Inhabited T]

lemma size_create (size : BitVec 32) :
    (create T size).size.toNat =
      if size.toNat ≤ 2 ^ 31 then max (2 ^ 12) (2 ^ Nat.clog 2 size.toNat) else 2 ^ 12 := by
  have hleast : (1#32 <<< (SHUFFLE_BITS * 2)).toNat = 2 ^ 12 := rfl
  have hmax : (create T size).size.toNat = max (2 ^ 12) (roundUpToPowerOf2 size).toNat := by
    simp only [create]
    split
    · rename_i hlt
      rw [BitVec.lt_def, hleast] at hlt
      omega
    · rename_i hge
      rw [BitVec.lt_def, hleast] at hge
      omega
  rw [hmax]
  by_cases hle : size.toNat ≤ 2 ^ 31
  · rw [if_pos hle]
    by_cases hzero : size.toNat = 0
    · rw [roundUp_of_lt (Or.inl hzero), hzero]
      decide
    · rw [roundUp_of_le hzero hle]
  · rw [if_neg hle, roundUp_of_lt (Or.inr (by omega))]
    decide

lemma exists_size_create (size : BitVec 32) :
    ∃ k, 12 ≤ k ∧ k ≤ 31 ∧ (create T size).size.toNat = 2 ^ k := by
  rw [size_create]
  split
  · rename_i hle
    have hclog : Nat.clog 2 size.toNat ≤ 31 := (Nat.clog_le_iff_le_pow (by omega)).mpr hle
    rcases le_total 12 (Nat.clog 2 size.toNat) with h | h
    · exact ⟨_, h, hclog, max_eq_right (Nat.pow_le_pow_right (by omega) h)⟩
    · exact ⟨12, le_rfl, by omega, max_eq_left (Nat.pow_le_pow_right (by omega) h)⟩
  · exact ⟨12, le_rfl, by omega, rfl⟩

/-! ### The slots of the tickets -/

/-- The slot at the place `p` of the circle. -/
def slot (p : ℕ) : ℕ := (swapGroups SHUFFLE_BITS (BitVec.ofNat 32 p)).toNat

lemma slot_lt {p k : ℕ} (hk : 12 ≤ k) (hk' : k ≤ 31) (hp : p < 2 ^ k) : slot p < 2 ^ k := by
  have h32 : 2 ^ k < 2 ^ 32 := Nat.pow_lt_pow_right (by omega) (by omega)
  refine swapGroups_lt (by decide) (show 2 * 6 ≤ k by omega) ?_
  rwa [BitVec.toNat_ofNat, Nat.mod_eq_of_lt (by omega)]

lemma slot_inj {p p' : ℕ} (hp : p < 2 ^ 32) (hp' : p' < 2 ^ 32) (h : slot p = slot p') :
    p = p' := by
  have hswap := congrArg (swapGroups SHUFFLE_BITS) (BitVec.eq_of_toNat_eq h)
  rw [swapGroups_swapGroups (by decide), swapGroups_swapGroups (by decide)] at hswap
  have hnat := congrArg BitVec.toNat hswap
  rwa [BitVec.toNat_ofNat, BitVec.toNat_ofNat, Nat.mod_eq_of_lt hp, Nat.mod_eq_of_lt hp'] at hnat

omit [Inhabited T] in
lemma index_eq {q : AtomicQueueB2 T} {k : ℕ} (hk : k ≤ 31) (hq : q.size.toNat = 2 ^ k)
    (ticket : BitVec 32) : q.index ticket = slot (ticket.toNat % 2 ^ k) := by
  have hpos : 0 < 2 ^ k := Nat.two_pow_pos k
  have hlt : 2 ^ k < 2 ^ 32 := Nat.pow_lt_pow_right (by omega) (by omega)
  have hmask : (q.size - 1).toNat = 2 ^ k - 1 := by
    rw [BitVec.toNat_sub_of_le (by rw [BitVec.le_def, hq]; exact hpos), hq]
    rfl
  have hand : ticket &&& (q.size - 1) = BitVec.ofNat 32 (ticket.toNat % 2 ^ k) := by
    refine BitVec.eq_of_toNat_eq ?_
    rw [BitVec.toNat_and, hmask, Nat.and_two_pow_sub_one_eq_mod, BitVec.toNat_ofNat,
      Nat.mod_eq_of_lt (a := ticket.toNat % 2 ^ k)]
    exact (Nat.mod_lt _ hpos).trans hlt
  rw [index, hand]
  rfl

omit [Inhabited T] in
/-- The slot that is `i` tickets after the ticket `t`, also where the tickets wrap around. -/
lemma index_add {q : AtomicQueueB2 T} {k : ℕ} (hk : k ≤ 31) (hq : q.size.toNat = 2 ^ k)
    (t : BitVec 32) (i : ℕ) :
    q.index (t + BitVec.ofNat 32 i) = slot ((t.toNat % 2 ^ k + i) % 2 ^ k) := by
  have hdvd : 2 ^ k ∣ 2 ^ 32 := Nat.pow_dvd_pow 2 (by omega)
  rw [index_eq hk hq, BitVec.toNat_add, BitVec.toNat_ofNat, Nat.add_mod_mod,
    Nat.mod_mod_of_dvd _ hdvd, Nat.mod_add_mod]

/-- **Every slot has its turn.**  The arrays are as long as the least power of two that is not
below the size that was asked for and not below 4096, or 4096 when that number has no room in an
`unsigned`; and as many tickets as there are slots, one after the other, also where the tickets
wrap around, lead to all the slots, one to each. -/
theorem index_bijOn (size t : BitVec 32) :
    (create T size).size.toNat = (if size.toNat ≤ 2 ^ 31 then
      max (2 ^ 12) (2 ^ Nat.clog 2 size.toNat) else 2 ^ 12) ∧
    Set.BijOn (fun i : ℕ => (create T size).index (t + BitVec.ofNat 32 i))
      (Set.Iio (create T size).size.toNat) (Set.Iio (create T size).size.toNat) := by
  refine ⟨size_create size, ?_⟩
  obtain ⟨k, hk, hk', hq⟩ := exists_size_create (T := T) size
  have hpos : 0 < 2 ^ k := Nat.two_pow_pos k
  have hlt : 2 ^ k < 2 ^ 32 := Nat.pow_lt_pow_right (by omega) (by omega)
  simp only [index_add hk' hq]
  rw [hq]
  have hmaps : Set.MapsTo (fun i => slot ((t.toNat % 2 ^ k + i) % 2 ^ k)) (Set.Iio (2 ^ k))
      (Set.Iio (2 ^ k)) := fun i _ => slot_lt hk hk' (Nat.mod_lt _ hpos)
  have hinj : Set.InjOn (fun i => slot ((t.toNat % 2 ^ k + i) % 2 ^ k)) (Set.Iio (2 ^ k)) := by
    intro i hi j hj hij
    have hmod := slot_inj ((Nat.mod_lt _ hpos).trans hlt) ((Nat.mod_lt _ hpos).trans hlt) hij
    have hcancel : i ≡ j [MOD 2 ^ k] := Nat.ModEq.add_left_cancel' _ hmod
    exact hcancel.eq_of_lt_of_lt hi hj
  refine ⟨hmaps, hinj, ?_⟩
  -- an injection of a finite set into itself
  have himage : Finset.image (fun i => slot ((t.toNat % 2 ^ k + i) % 2 ^ k))
      (Finset.range (2 ^ k)) = Finset.range (2 ^ k) := by
    refine Finset.eq_of_subset_of_card_le ?_ ?_
    · intro j hj
      obtain ⟨i, hi, rfl⟩ := Finset.mem_image.mp hj
      exact Finset.mem_range.mpr (hmaps (Finset.mem_range.mp hi))
    · rw [Finset.card_image_of_injOn (by simpa using hinj)]
  intro j hj
  have hmem : j ∈ Finset.range (2 ^ k) := Finset.mem_range.mpr hj
  rw [← himage] at hmem
  obtain ⟨i, hi, rfl⟩ := Finset.mem_image.mp hmem
  exact ⟨i, Finset.mem_range.mp hi, rfl⟩

end EventManager.AtomicQueueB2
