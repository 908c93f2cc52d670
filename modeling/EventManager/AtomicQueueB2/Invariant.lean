import EventManager.Lib.Slots
import EventManager.AtomicQueueB2.Slots

/-!
# The invariant of the AtomicQueueB2 with one thread at each end

`RingInv` says what the members of the queue are when it holds the elements `xs`.  A pop that
has its ticket has taken the element of that ticket out of `xs`, though the element may still be
in its slot, or not yet be there; a push that has its ticket has put its element into `xs`,
though its slot may still be in use.  So the elements that the pop has taken and `xs` are, one
after the other, what the pop has claimed, what is ready in the slots, and what the push has
yet to publish.
-/

namespace EventManager.AtomicQueueB2

open Steps

variable {T : Type}

/-- What is at the place `p` of the circle: nothing, or a state and an element. -/
def cell (q : AtomicQueueB2 T) (p : ℕ) : Option (State × T) :=
  if q.states (slot p) = .empty then none else some (q.states (slot p), q.elements (slot p))

lemma cell_eq_some {q : AtomicQueueB2 T} {p : ℕ} {st : State} {x : T}
    (h : q.cell p = some (st, x)) : q.states (slot p) = st ∧ q.elements (slot p) = x := by
  simp only [cell] at h
  split at h
  · cases h
  · exact Prod.mk.inj (Option.some.inj h)

/-- The members of the queue when it holds `xs`.  The pop has `taken` an element, and has the
slot of `claimed` in the condition `front`; the push has yet to publish `pending`, and has its
slot in the condition `last`; `rest` is what is ready in between. -/
structure RingInv (n : ℕ) (q : AtomicQueueB2 T) (taken claimed rest pending : List T)
    (front last : List (State × T)) (xs : List T) : Prop where
  exp : ∃ k, 12 ≤ k ∧ k ≤ 30 ∧ n = 2 ^ k
  size : q.size.toNat = n
  head : q.head = q.tail + BitVec.ofNat 32 xs.length
  parts : taken ++ xs = claimed ++ (rest ++ pending)
  front_length : front.length = claimed.length
  room : front.length + rest.length + last.length ≤ n
  pending_length : pending.length ≤ 1
  window : Ring.Window n q.cell ((q.tail - BitVec.ofNat 32 taken.length).toNat % n)
    (front ++ (rest.map (Prod.mk State.stored) ++ last))

namespace RingInv

variable {n p : ℕ} {q : AtomicQueueB2 T} {taken claimed rest pending xs : List T}
  {front last : List (State × T)} {x y z : T}

/-! ### Lengths and tickets -/

lemma le (h : RingInv n q taken claimed rest pending front last xs) :
    2 ^ 12 ≤ n ∧ n ≤ 2 ^ 30 := by
  obtain ⟨k, hk, hk', rfl⟩ := h.exp
  exact ⟨Nat.pow_le_pow_right (by omega) hk, Nat.pow_le_pow_right (by omega) hk'⟩

lemma lengths (h : RingInv n q taken claimed rest pending front last xs) :
    taken.length + xs.length = front.length + rest.length + pending.length := by
  have hparts := congrArg List.length h.parts
  simp only [List.length_append] at hparts
  have := h.front_length
  omega

lemma length_le (h : RingInv n q taken claimed rest pending front last xs) :
    xs.length ≤ n + 1 := by
  have := h.lengths
  have := h.room
  have := h.pending_length
  omega

lemma start_lt (h : RingInv n q taken claimed rest pending front last xs) :
    (q.tail - BitVec.ofNat 32 taken.length).toNat % n < n :=
  Nat.mod_lt _ (by have := h.le; omega)

lemma head_sub_tail (h : RingInv n q taken claimed rest pending front last xs) :
    q.head - q.tail = BitVec.ofNat 32 xs.length := by
  rw [h.head, BitVec.add_comm, BitVec.add_sub_cancel]

lemma value_eq_nil_iff (h : RingInv n q taken claimed rest pending front last xs) :
    q.head = q.tail ↔ xs = [] := by
  have := h.length_le
  have := h.le
  rw [← sub_eq_zero (a := q.head), h.head_sub_tail, ← BitVec.toNat_inj, BitVec.toNat_ofNat,
    Nat.mod_eq_of_lt (by omega)]
  exact List.length_eq_zero_iff

lemma toInt_head_sub_tail (h : RingInv n q taken claimed rest pending front last xs) :
    (q.head - q.tail).toInt = xs.length := by
  have := h.length_le
  have := h.le
  have hnat : (BitVec.ofNat 32 xs.length).toNat = xs.length := by
    rw [BitVec.toNat_ofNat, Nat.mod_eq_of_lt (by omega)]
  rw [h.head_sub_tail, BitVec.toInt_eq_toNat_of_lt (by rw [hnat]; omega), hnat]

lemma toInt_size (h : RingInv n q taken claimed rest pending front last xs) :
    q.size.toInt = n := by
  have := h.le
  rw [BitVec.toInt_eq_toNat_of_lt (by rw [h.size]; omega), h.size]

lemma index_lt (h : RingInv n q taken claimed rest pending front last xs) (ticket : BitVec 32) :
    q.index ticket < q.size.toNat := by
  obtain ⟨k, hk, hk', rfl⟩ := h.exp
  rw [index_eq (by omega) h.size, h.size]
  exact slot_lt hk (by omega) (Nat.mod_lt _ (Nat.two_pow_pos k))

/-- The slot that a pop has the ticket of. -/
lemma index_tail (h : RingInv n q [y] claimed rest pending front last xs) :
    q.index (q.tail - 1) = slot ((q.tail - BitVec.ofNat 32 [y].length).toNat % n) := by
  obtain ⟨k, -, hk', rfl⟩ := h.exp
  exact index_eq (by omega) h.size _

/-- The slot that a push has the ticket of comes after the slots that are in use. -/
lemma index_head (h : RingInv n q taken claimed rest [x] front last xs) :
    q.index (q.head - 1) = slot (((q.tail - BitVec.ofNat 32 taken.length).toNat % n +
      (front ++ rest.map (Prod.mk State.stored)).length) % n) := by
  have hlen := h.lengths
  obtain ⟨k, -, hk', rfl⟩ := h.exp
  rw [← index_add (by omega) h.size]
  congr 1
  rw [h.head]
  simp only [List.length_append, List.length_map, List.length_singleton] at hlen ⊢
  have hone : (1 : BitVec 32) = BitVec.ofNat 32 1 := rfl
  have hsplit : BitVec.ofNat 32 taken.length + BitVec.ofNat 32 xs.length =
      BitVec.ofNat 32 (front.length + rest.length) + BitVec.ofNat 32 1 := by
    rw [← BitVec.ofNat_add, ← BitVec.ofNat_add, hlen]
  rw [hone]
  generalize BitVec.ofNat 32 taken.length = a at hsplit ⊢
  generalize BitVec.ofNat 32 xs.length = b at hsplit ⊢
  generalize BitVec.ofNat 32 (front.length + rest.length) = c at hsplit ⊢
  generalize BitVec.ofNat 32 1 = d at hsplit ⊢
  have hb : b = c + d - a := by
    rw [← hsplit, BitVec.add_comm, BitVec.add_sub_cancel]
  rw [hb]
  ring

/-! ### What the steps do to the circle -/

lemma cell_states (h : RingInv n q taken claimed rest pending front last xs) (hp : p < n)
    (st : State) :
    ∀ i < n, cell { q with states := Function.update q.states (slot p) st } i =
      Function.update q.cell p
        (if st = .empty then none else some (st, q.elements (slot p))) i := by
  intro i hi
  have := h.le
  by_cases hip : i = p
  · subst hip
    simp [cell]
  · have hslot : slot i ≠ slot p := fun heq => hip (slot_inj (by omega) (by omega) heq)
    simp [cell, hip, hslot]

lemma cell_elements (h : RingInv n q taken claimed rest pending front last xs) (hp : p < n)
    {st : State} (hst : q.cell p = some (st, z)) (x : T) :
    ∀ i < n, cell { q with elements := Function.update q.elements (slot p) x } i =
      Function.update q.cell p (some (st, x)) i := by
  intro i hi
  have := h.le
  by_cases hip : i = p
  · subst hip
    simp only [cell] at hst ⊢
    split at hst
    · cases hst
    · rename_i hne
      cases hst
      simp [hne]
  · have hslot : slot i ≠ slot p := fun heq => hip (slot_inj (by omega) (by omega) heq)
    simp [cell, hip, hslot]

lemma pushTicket (h : RingInv n q taken claimed rest [] front [] xs) (x : T) :
    RingInv n { q with head := q.head + 1 } taken claimed rest [x] front [] (xs ++ [x]) :=
  { h with
    head := by
      show q.head + 1 = q.tail + BitVec.ofNat 32 (xs ++ [x]).length
      rw [h.head, List.length_append, List.length_singleton, BitVec.ofNat_add, BitVec.add_assoc]
      rfl
    parts := by
      rw [← List.append_assoc, h.parts]
      simp
    pending_length := le_rfl }

/-- A push finds its slot empty, and claims it. -/
lemma pushClaim (h : RingInv n q taken claimed rest [x] front [] xs)
    (hempty : q.states (q.index (q.head - 1)) = .empty) :
    RingInv n { q with states := Function.update q.states (q.index (q.head - 1)) .storing }
      taken claimed rest [x] front [(.storing, q.elements (q.index (q.head - 1)))] xs := by
  have hindex := h.index_head
  have hwin := h.window
  have hroom := h.room
  rw [List.append_nil] at hwin
  have hlt : (front ++ rest.map (Prod.mk State.stored)).length < n := by
    by_contra hfull
    have hn : (front ++ rest.map (Prod.mk State.stored)).length = n := by
      simp only [List.length_append, List.length_map, List.length_nil] at hfull hroom ⊢
      omega
    -- the slot after a full circle is the first one
    rw [hn, Nat.add_mod_right, Nat.mod_mod] at hindex
    have hpos : 0 < n := by have := h.le; omega
    have hget := hwin.get h.start_lt hpos
    rw [Nat.add_zero, Nat.mod_mod, List.getElem?_eq_getElem (hn ▸ hpos), cell, ← hindex,
      if_pos hempty] at hget
    cases hget
  have hp := Nat.mod_lt ((q.tail - BitVec.ofNat 32 taken.length).toNat % n +
    (front ++ rest.map (Prod.mk State.stored)).length) (show n > 0 by omega)
  refine { h with room := ?_, window := ?_ }
  · simp only [List.length_append, List.length_map, List.length_singleton] at hlt ⊢
    omega
  · rw [hindex]
    refine Ring.Window.congr ?_ (h.cell_states hp .storing)
    rw [if_neg (by decide), ← List.append_assoc]
    exact hwin.push h.start_lt hlt _

lemma pushWrite (h : RingInv n q taken claimed rest [x] front [(.storing, z)] xs) (y : T) :
    RingInv n { q with elements := Function.update q.elements (q.index (q.head - 1)) y }
      taken claimed rest [x] front [(.storing, y)] xs := by
  have hwin := h.window
  have hroom := h.room
  have hlt : (front ++ rest.map (Prod.mk State.stored)).length < n := by
    simp only [List.length_append, List.length_map, List.length_singleton] at hroom ⊢
    omega
  rw [← List.append_assoc] at hwin
  have hget := hwin.get h.start_lt hlt
  rw [List.getElem?_concat_length] at hget
  refine { h with window := ?_ }
  rw [h.index_head, ← List.append_assoc]
  refine Ring.Window.congr ?_ (h.cell_elements (Nat.mod_lt _ (by omega)) hget y)
  have hset := hwin.set h.start_lt hlt (by simp) (State.storing, y)
  rwa [List.set_append_right _ _ le_rfl, Nat.sub_self] at hset

lemma publish (h : RingInv n q taken claimed rest [x] front [(.storing, x)] xs) :
    RingInv n { q with states := Function.update q.states (q.index (q.head - 1)) .stored }
      taken claimed (rest ++ [x]) [] front [] xs := by
  have hwin := h.window
  have hroom := h.room
  have hlt : (front ++ rest.map (Prod.mk State.stored)).length < n := by
    simp only [List.length_append, List.length_map, List.length_singleton] at hroom ⊢
    omega
  rw [← List.append_assoc] at hwin
  have hget := hwin.get h.start_lt hlt
  rw [List.getElem?_concat_length] at hget
  have helement : q.elements (slot (((q.tail - BitVec.ofNat 32 taken.length).toNat % n +
      (front ++ rest.map (Prod.mk State.stored)).length) % n)) = x := (cell_eq_some hget).2
  refine { h with parts := ?_, room := ?_, pending_length := Nat.zero_le _, window := ?_ }
  · rw [h.parts, List.append_nil]
  · simpa [Nat.add_assoc] using hroom
  · rw [h.index_head, List.append_nil, List.map_append, ← List.append_assoc]
    refine Ring.Window.congr ?_ (h.cell_states (Nat.mod_lt _ (by omega)) .stored)
    have hset := hwin.set h.start_lt hlt (by simp) (State.stored, x)
    rw [if_neg (by decide), helement]
    rwa [List.set_append_right _ _ le_rfl, Nat.sub_self] at hset

lemma popTicket (h : RingInv n q [] [] rest pending [] last (y :: xs)) :
    RingInv n { q with tail := q.tail + 1 } [y] [] rest pending [] last xs :=
  { h with
    head := by
      show q.head = q.tail + 1 + BitVec.ofNat 32 xs.length
      rw [h.head, List.length_cons, Nat.add_comm xs.length, BitVec.ofNat_add, ← BitVec.add_assoc]
      rfl
    parts := h.parts
    window := by
      have hwin := h.window
      show Ring.Window n q.cell ((q.tail + 1 - 1).toNat % n) _
      rwa [BitVec.add_sub_cancel, ← BitVec.sub_zero q.tail] }

/-- A pop finds its slot ready, and claims it. -/
lemma popClaim (h : RingInv n q [y] [] rest pending [] last xs)
    (hlast : ∀ e ∈ last, e.1 = .storing)
    (hstored : q.states (q.index (q.tail - 1)) = .stored) :
    ∃ rest', rest = y :: rest' ∧ q.elements (q.index (q.tail - 1)) = y ∧
      RingInv n { q with states := Function.update q.states (q.index (q.tail - 1)) .loading }
        [y] [y] rest' pending [(.loading, y)] last xs := by
  have hwin := h.window
  have hindex := h.index_tail
  have hcell : q.cell ((q.tail - BitVec.ofNat 32 [y].length).toNat % n) =
      some (.stored, q.elements (q.index (q.tail - 1))) := by
    rw [cell, ← hindex, hstored]
    rfl
  cases rest with
  | nil =>
    -- nothing is ready in the first slot
    cases last with
    | nil =>
      have hget := hwin.free h.start_lt (by have := h.le; simp; omega)
      rw [List.append_nil, List.map_nil, List.append_nil, List.length_nil, Nat.add_zero,
        Nat.mod_mod, hcell] at hget
      cases hget
    | cons e last =>
      have hget := hwin.head h.start_lt
      rw [hcell] at hget
      cases hget
      exact absurd (hlast _ (List.mem_cons_self ..)) (by simp)
  | cons x rest' =>
    have hxy : x = y := by
      have hparts := h.parts
      exact (List.cons.inj hparts).1.symm
    subst hxy
    have hget := hwin.head h.start_lt
    rw [hcell] at hget
    have helement : q.elements (q.index (q.tail - 1)) = x := by
      cases hget
      rfl
    refine ⟨rest', rfl, helement, { h with
      parts := h.parts
      front_length := rfl
      room := by simpa [Nat.add_comm, Nat.add_left_comm] using h.room
      window := ?_ }⟩
    rw [hindex]
    refine Ring.Window.congr ?_ (h.cell_states h.start_lt .loading)
    rw [if_neg (by decide), ← hindex, helement]
    exact hwin.set_head h.start_lt _

lemma element_eq (h : RingInv n q [y] [y] rest pending [(.loading, z)] last xs) :
    q.elements (q.index (q.tail - 1)) = z := by
  rw [h.index_tail]
  exact (cell_eq_some (h.window.head h.start_lt)).2

lemma popRead (h : RingInv n q [y] [y] rest pending [(.loading, z)] last xs) (x : T) :
    RingInv n { q with elements := Function.update q.elements (q.index (q.tail - 1)) x }
      [y] [y] rest pending [(.loading, x)] last xs := by
  have hwin := h.window
  refine { h with front_length := rfl, window := ?_ }
  rw [h.index_tail]
  refine Ring.Window.congr ?_ (h.cell_elements h.start_lt (hwin.head h.start_lt) x)
  exact hwin.set_head h.start_lt _

/-- A pop gives its slot back. -/
lemma popRelease (h : RingInv n q [y] [y] rest pending [(.loading, z)] last xs) :
    RingInv n { q with states := Function.update q.states (q.index (q.tail - 1)) .empty }
      [] [] rest pending [] last xs := by
  have hwin := h.window
  have hroom := h.room
  simp only [List.length_singleton] at hroom
  refine { h with
    parts := (List.cons.inj h.parts).2
    front_length := rfl
    room := by simp only [List.length_nil]; omega
    window := ?_ }
  rw [h.index_tail]
  refine Ring.Window.congr ?_ (h.cell_states h.start_lt .empty)
  have hpop := hwin.pop h.start_lt (by simp; omega)
  -- the next slot is that of `tail_`
  have hstart : ((q.tail - BitVec.ofNat 32 [y].length).toNat % n + 1) % n =
      (q.tail - BitVec.ofNat 32 ([] : List T).length).toNat % n := by
    obtain ⟨k, -, hk, rfl⟩ := h.exp
    have hdvd : 2 ^ k ∣ 2 ^ 32 := Nat.pow_dvd_pow 2 (by omega)
    have hnext : q.tail - BitVec.ofNat 32 ([] : List T).length =
        q.tail - BitVec.ofNat 32 [y].length + BitVec.ofNat 32 1 := by
      simp
    rw [hnext, BitVec.toNat_add, Nat.mod_mod_of_dvd _ hdvd, Nat.mod_add_mod]
    rfl
  rw [hstart] at hpop
  exact hpop

end RingInv

end EventManager.AtomicQueueB2
