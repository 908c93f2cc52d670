import EventManager.SPSCQueue.Basic

/-!
# The invariant of the SPSCQueue

`RingInv` says what the members of the queue are when it holds the elements `xs`: the ring
holds `xs` from `readIdx_` on, without the first one while `pop` has destroyed it, and with
one more while `emplace` has constructed it; `writeIdx_` is `xs.length` slots after
`readIdx_`; and the copy that a side has of the other side's index is an earlier value of it,
so that it promises no more than there is.
-/

namespace EventManager.SPSCQueue

open Steps

variable {T : Type}

/-! ### The indices -/

/-- The members of the queue when it holds `xs`; `inflight` is what `emplace` has constructed
after them, and `popped` says whether `pop` has destroyed the first of them. -/
structure RingInv (q : SPSCQueue T) (inflight : List T) (popped : Bool) (xs : List T) :
    Prop where
  pos : 0 < q.capacity
  capacity_le : q.capacity + 2 * q.kPadding ≤ ptrdiffMax
  slots_length : q.slots.length = q.capacity + 2 * q.kPadding
  readIdx_lt : q.readIdx < q.capacity
  writeIdx_eq : q.writeIdx = (q.readIdx + xs.length) % q.capacity
  readIdxCache_lt : q.readIdxCache < q.capacity
  readIdxCache : ∃ k, q.readIdx = (q.readIdxCache + k) % q.capacity ∧
    k + xs.length + inflight.length < q.capacity
  writeIdxCache : ∃ k ≤ xs.length, q.writeIdxCache = (q.readIdx + k) % q.capacity
  window : Ring.Window q.capacity (fun i => q.slots.cell (i + q.kPadding))
    (if popped then (q.readIdx + 1) % q.capacity else q.readIdx)
    ((if popped then xs.tail else xs) ++ inflight)
  outside : ∀ i, q.slots.cell i ≠ none → q.kPadding ≤ i ∧ i < q.kPadding + q.capacity
  popped_ne : popped → xs ≠ []

namespace RingInv

variable {q : SPSCQueue T} {inflight xs : List T} {popped : Bool} {x y : T}

lemma length_lt (h : RingInv q inflight popped xs) :
    xs.length + inflight.length < q.capacity := by
  obtain ⟨k, -, hk⟩ := h.readIdxCache
  omega

lemma capacity_lt (h : RingInv q inflight popped xs) : q.capacity < 2 ^ 63 := by
  have := h.capacity_le
  simp only [ptrdiffMax] at this
  omega

lemma writeIdx_lt (h : RingInv q inflight popped xs) : q.writeIdx < q.capacity := by
  rw [h.writeIdx_eq]
  exact Nat.mod_lt _ h.pos

lemma nextIdx_eq (h : RingInv q inflight popped xs) {i : ℕ} (hi : i < q.capacity) :
    q.nextIdx i = (i + 1) % q.capacity := by
  have hcap := h.capacity_lt
  have hmod : (i + 1) % 2 ^ 64 = i + 1 := Nat.mod_eq_of_lt (by omega)
  rw [nextIdx, hmod, Ring.add_mod_eq hi h.pos]
  split <;> split <;> omega

lemma next_eq_readIdx_iff (h : RingInv q inflight popped xs) :
    q.nextIdx q.writeIdx = q.readIdx ↔ xs.length + 1 = q.capacity := by
  have hlen := h.length_lt
  have hr := h.readIdx_lt
  rw [h.nextIdx_eq h.writeIdx_lt, h.writeIdx_eq, Nat.mod_add_mod, Nat.add_assoc,
    Ring.add_mod_eq hr (by omega)]
  split <;> omega

/-- A copy of `readIdx_` that leaves room for an element is right about it. -/
lemma room_of_cache (h : RingInv q inflight popped xs)
    (hne : q.nextIdx q.writeIdx ≠ q.readIdxCache) :
    ∃ k, q.readIdx = (q.readIdxCache + k) % q.capacity ∧ k + xs.length + 1 < q.capacity := by
  obtain ⟨k, hk, hlen⟩ := h.readIdxCache
  have hc := h.readIdxCache_lt
  refine ⟨k, hk, ?_⟩
  by_contra hfull
  have hround : k + (xs.length + 1) = q.capacity := by omega
  apply hne
  rw [h.nextIdx_eq h.writeIdx_lt, h.writeIdx_eq, Nat.mod_add_mod, Nat.add_assoc, hk,
    Nat.mod_add_mod, Nat.add_assoc, hround, Nat.add_mod_right, Nat.mod_eq_of_lt hc]

/-- A copy of `writeIdx_` that differs from `readIdx_` is right that there is an element. -/
lemma ne_nil_of_cache (h : RingInv q inflight popped xs) (hne : q.writeIdxCache ≠ q.readIdx) :
    xs ≠ [] := by
  rintro rfl
  obtain ⟨k, hk, hcache⟩ := h.writeIdxCache
  obtain rfl : k = 0 := by simpa using hk
  exact hne (by rw [hcache, Nat.add_zero, Nat.mod_eq_of_lt h.readIdx_lt])

lemma writeIdx_eq_readIdx_iff (h : RingInv q inflight popped xs) :
    q.writeIdx = q.readIdx ↔ xs = [] := by
  have hlen := h.length_lt
  have hr := h.readIdx_lt
  rw [h.writeIdx_eq, Ring.add_mod_eq hr (by omega), ← List.length_eq_zero_iff]
  split <;> omega

lemma empty_eq (h : RingInv q inflight popped xs) :
    empty q.writeIdx q.readIdx = xs.isEmpty := by
  rw [Bool.eq_iff_iff, empty, decide_eq_true_iff, h.writeIdx_eq_readIdx_iff, List.isEmpty_iff]

/-- The difference of the indices is the number of elements, also across the end of the
ring. -/
lemma size_eq (h : RingInv q inflight popped xs) :
    size q.capacity q.writeIdx q.readIdx = xs.length := by
  have hlen := h.length_lt
  have hr := h.readIdx_lt
  have hcap := h.capacity_lt
  have hbmod : ∀ z : ℤ, -2 ^ 63 ≤ z → z < 2 ^ 63 → Int.bmod z (2 ^ 64) = z := by
    intro z hlow hhigh
    exact Int.bmod_eq_of_le (by omega) (by omega)
  have hw := h.writeIdx_eq
  rw [Ring.add_mod_eq hr (by omega)] at hw
  simp only [size]
  split at hw
  · -- `writeIdx_` is not before `readIdx_`
    rw [hw, hbmod _ (by omega) (by omega), if_neg (by omega), Int.emod_eq_of_lt (by omega)
      (by omega)]
    omega
  · rw [hw, hbmod _ (by omega) (by omega), if_pos (by omega), hbmod _ (by omega) (by omega),
      Int.emod_eq_of_lt (by omega) (by omega)]
    omega

lemma answer_eq [Inhabited T] (h : RingInv q inflight popped xs) (n : ℕ) (what : Query) :
    (boundedFifo T n).apply xs (.query what) () =
      some (xs, answer q.capacity (q.writeIdx, q.readIdx) what) := by
  cases what with
  | size => cases xs <;> simp [boundedFifo, answer, h.size_eq]
  | empty => cases xs <;> simp [boundedFifo, answer, h.empty_eq]

/-! ### What the steps do to the ring -/

lemma refresh_read (h : RingInv q inflight popped xs) :
    RingInv { q with readIdxCache := q.readIdx } inflight popped xs :=
  { h with
    readIdxCache_lt := h.readIdx_lt
    readIdxCache := ⟨0, by simp [Nat.mod_eq_of_lt h.readIdx_lt], by
      show 0 + xs.length + inflight.length < q.capacity
      have := h.length_lt
      omega⟩ }

lemma refresh_write (h : RingInv q inflight popped xs) :
    RingInv { q with writeIdxCache := q.writeIdx } inflight popped xs :=
  { h with writeIdxCache := ⟨xs.length, le_rfl, h.writeIdx_eq⟩ }

lemma cell_update {cell : ℕ → Option T} {pad i : ℕ} (o : Option T) :
    (fun j => Function.update cell (i + pad) o (j + pad)) =
      Function.update (fun j => cell (j + pad)) i o := by
  funext j
  by_cases hj : j = i
  · subst hj
    simp
  · rw [Function.update_of_ne hj, Function.update_of_ne (by omega)]

lemma start_lt (h : RingInv q inflight popped xs) :
    (if popped then (q.readIdx + 1) % q.capacity else q.readIdx) < q.capacity := by
  split
  · exact Nat.mod_lt _ h.pos
  · exact h.readIdx_lt

lemma writeIdx_eq_start (h : RingInv q inflight popped xs) :
    q.writeIdx = ((if popped then (q.readIdx + 1) % q.capacity else q.readIdx) +
      (if popped then xs.tail else xs).length) % q.capacity := by
  rw [h.writeIdx_eq]
  cases popped with
  | false => rfl
  | true =>
    have hpos := List.length_pos_iff.mpr (h.popped_ne rfl)
    simp only [if_true, List.length_tail, Nat.mod_add_mod]
    congr 1
    omega

lemma construct (h : RingInv q [] popped xs) (hne : q.nextIdx q.writeIdx ≠ q.readIdxCache)
    (x : T) :
    ∃ slots, q.slots.construct (q.writeIdx + q.kPadding) x = some slots ∧
      RingInv { q with slots := slots } [x] popped xs := by
  have hw := h.writeIdx_lt
  obtain ⟨k, hk, hroom⟩ := h.room_of_cache hne
  have hlen : (if popped then xs.tail else xs).length < q.capacity := by
    split
    · rw [List.length_tail]
      omega
    · omega
  have hwin := h.window
  rw [List.append_nil] at hwin
  have hraw : q.slots.cell (q.writeIdx + q.kPadding) = none := by
    rw [h.writeIdx_eq_start]
    exact hwin.free h.start_lt hlen
  obtain ⟨slots, hslots, hlength, hcell⟩ :=
    Slots.construct_of_raw (by rw [h.slots_length]; omega) hraw x
  refine ⟨slots, hslots, { h with
    slots_length := hlength.trans h.slots_length
    readIdxCache := ⟨k, hk, hroom⟩
    window := ?_
    outside := ?_ }⟩
  · have hpush := hwin.push h.start_lt hlen x
    rw [← h.writeIdx_eq_start] at hpush
    simp only [hcell, cell_update]
    exact hpush
  · intro i hi
    simp only [hcell] at hi
    by_cases hiw : i = q.writeIdx + q.kPadding
    · subst hiw
      show q.kPadding ≤ q.writeIdx + q.kPadding ∧ q.writeIdx + q.kPadding < q.kPadding + q.capacity
      omega
    · rw [Function.update_of_ne hiw] at hi
      exact h.outside i hi

/-- The element that `emplace` has constructed comes into the queue. -/
lemma store_write (h : RingInv q [x] popped xs) :
    RingInv { q with writeIdx := q.nextIdx q.writeIdx } [] popped (xs ++ [x]) := by
  refine { h with
    writeIdx_eq := ?_
    readIdxCache := ?_
    writeIdxCache := ?_
    window := ?_
    popped_ne := by simp }
  · rw [h.nextIdx_eq h.writeIdx_lt, h.writeIdx_eq, Nat.mod_add_mod, Nat.add_assoc]
    simp
  · obtain ⟨k, hk, hlen⟩ := h.readIdxCache
    exact ⟨k, hk, by simpa [Nat.add_assoc] using hlen⟩
  · obtain ⟨k, hk, hcache⟩ := h.writeIdxCache
    exact ⟨k, by simp; omega, hcache⟩
  · have hwin := h.window
    rw [List.append_nil]
    cases popped with
    | false => exact hwin
    | true =>
      have hne := h.popped_ne rfl
      rwa [if_pos rfl, if_pos rfl, ← List.tail_append_of_ne_nil hne] at hwin

lemma destroy (h : RingInv q inflight false (x :: xs)) :
    ∃ slots, q.slots.destroy (q.readIdx + q.kPadding) = some slots ∧
      RingInv { q with slots := slots } inflight true (x :: xs) := by
  have hr := h.readIdx_lt
  have hlen := h.length_lt
  simp only [List.length_cons] at hlen
  have hwin : Ring.Window q.capacity (fun i => q.slots.cell (i + q.kPadding)) q.readIdx
    (x :: (xs ++ inflight)) := h.window
  obtain ⟨slots, hslots, hlength, hcell⟩ := Slots.destroy_of_cell (hwin.head hr)
  refine ⟨slots, hslots, { h with
    slots_length := hlength.trans h.slots_length
    window := ?_
    outside := ?_
    popped_ne := by simp }⟩
  · have hpop := hwin.pop hr (by simp; omega)
    simp only [hcell, cell_update]
    exact hpop
  · intro i hi
    simp only [hcell] at hi
    by_cases hir : i = q.readIdx + q.kPadding
    · subst hir
      simp at hi
    · rw [Function.update_of_ne hir] at hi
      exact h.outside i hi

/-- The element that `pop` has destroyed leaves the queue. -/
lemma store_read (h : RingInv q inflight true xs) (hne : q.writeIdxCache ≠ q.readIdx) :
    RingInv { q with readIdx := q.nextIdx q.readIdx } inflight false xs.tail := by
  have hr := h.readIdx_lt
  have hpos := List.length_pos_iff.mpr (h.popped_ne rfl)
  have hnext := h.nextIdx_eq hr
  refine { h with
    readIdx_lt := ?_
    writeIdx_eq := ?_
    readIdxCache := ?_
    writeIdxCache := ?_
    window := ?_
    popped_ne := by simp }
  · simp only [hnext]
    exact Nat.mod_lt _ (by omega)
  · simp only [hnext]
    have hw := h.writeIdx_eq_start
    rwa [if_pos rfl, if_pos rfl] at hw
  · obtain ⟨k, hk, hlen⟩ := h.readIdxCache
    refine ⟨k + 1, ?_, ?_⟩
    · show q.nextIdx q.readIdx = (q.readIdxCache + (k + 1)) % q.capacity
      rw [hnext, hk, Nat.mod_add_mod, Nat.add_assoc]
    · show k + 1 + xs.tail.length + inflight.length < q.capacity
      rw [List.length_tail]
      omega
  · obtain ⟨k, hk, hcache⟩ := h.writeIdxCache
    have hk0 : k ≠ 0 := by
      rintro rfl
      exact hne (by rw [hcache, Nat.add_zero, Nat.mod_eq_of_lt hr])
    refine ⟨k - 1, by rw [List.length_tail]; omega, ?_⟩
    simp only [hnext, hcache, Nat.mod_add_mod, Nat.add_assoc]
    congr 2
    omega
  · have hwin := h.window
    rw [if_pos rfl, if_pos rfl] at hwin
    simp only [hnext]
    exact hwin

lemma move [Inhabited T] (h : RingInv q inflight false (x :: xs)) :
    ∃ q', q.moveFrom (q.readIdx + q.kPadding) = some (q', x) ∧
      q' = { q with slots := q'.slots } ∧ RingInv q' inflight false (default :: xs) := by
  have hr := h.readIdx_lt
  have hwin : Ring.Window q.capacity (fun i => q.slots.cell (i + q.kPadding)) q.readIdx
    (x :: (xs ++ inflight)) := h.window
  have hx : q.slots.cell (q.readIdx + q.kPadding) = some x := hwin.head hr
  obtain ⟨slots, hslots, hlength, hcell⟩ := Slots.assign_of_cell hx default
  refine ⟨{ q with slots := slots }, by simp [moveFrom, hx, hslots], rfl, { h with
    slots_length := hlength.trans h.slots_length
    window := ?_
    outside := ?_
    popped_ne := by simp }⟩
  · simp only [hcell, cell_update]
    exact hwin.set_head hr default
  · intro i hi
    simp only [hcell] at hi
    by_cases hir : i = q.readIdx + q.kPadding
    · subst hir
      exact h.outside _ (by rw [hx]; simp)
    · rw [Function.update_of_ne hir] at hi
      exact h.outside i hi

end RingInv

end EventManager.SPSCQueue
