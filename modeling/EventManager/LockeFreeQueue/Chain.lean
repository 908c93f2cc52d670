import EventManager.LockeFreeQueue.Basic

/-!
# The segmented chain

Between the exchange of `tail_` and the store of `next` in its predecessor a new node is the
tail of the list but cannot be reached from `head_`, and any number of threads may be there
at once.  The list is then a chain of segments: a node is followed by the one that its `next`
names, or, when its `next` is still null, by the one that the thread between its two steps
is about to store there.

`Segmented` says so of a store, of `tail_` and of the calls in progress.  It is preserved by
every effect that a step may have on them: an allocation (`Segmented.alloc`), an exchange
(`Segmented.exchange`), a store (`Segmented.link`), the deletion of the first node
(`Segmented.delete`) and a write to the data of a node (`Segmented.move`).
-/

namespace EventManager

open Steps

namespace LockeFreeQueue

variable {T ι : Type}

/-- `next` of the node at `a`. -/
def nextOf (h : Heap (Node T)) (a : ℕ) : Option ℕ := (h.cell a).bind Node.next

/-- The thread `i` is about to store `b` into the `next` of its predecessor `a`. -/
def Linking (em : ι → Option (EmplacePc T)) (i : ι) (a b : ℕ) : Prop :=
  em i = some (.link a b)

/-- The thread `i` has allocated `n` for the element `v`, and has not exchanged it. -/
def Owns (em : ι → Option (EmplacePc T)) (i : ι) (v : T) (n : ℕ) : Prop :=
  em i = some (.exchange v n)

/-- The node `b` follows `a` in the list, or will do so when a thread goes on. -/
def Follows (h : Heap (Node T)) (em : ι → Option (EmplacePc T)) (a b : ℕ) : Prop :=
  nextOf h a = some b ∨ (nextOf h a = none ∧ ∃ i, Linking em i a b)

/-- The nodes `ch` are a list of segments that ends in `tail`; with the nodes that threads
have allocated and not exchanged they are all the nodes in the store. -/
structure Segmented (h : Heap (Node T)) (tail : ℕ) (em : ι → Option (EmplacePc T))
    (ch : List ℕ) : Prop where
  nodup : ch.Nodup
  last : ch.getLast? = some tail
  follows : ch.IsChain (Follows h em)
  live : ∀ a ∈ ch, h.Live a
  tail_next : nextOf h tail = none
  linking : ∀ i a b, Linking em i a b → a ∈ ch ∧ a ≠ tail ∧ nextOf h a = none
  linking_inj : ∀ i j a b b', Linking em i a b → Linking em j a b' → i = j
  owned : ∀ i v n, Owns em i v n → n ∉ ch ∧ h.cell n = some ⟨v, none⟩
  owned_inj : ∀ i j v v' n, Owns em i v n → Owns em j v' n → i = j
  cover : ∀ a, h.Live a → a ∈ ch ∨ ∃ i v, Owns em i v a

/-! ### `next` after a write -/

lemma nextOf_eq {h h' : Heap (Node T)} {a : ℕ} (hc : h'.cell a = h.cell a) :
    nextOf h' a = nextOf h a := by
  rw [nextOf, nextOf, hc]

lemma nextOf_of_cell {h : Heap (Node T)} {a : ℕ} {x : Node T} (hc : h.cell a = some x) :
    nextOf h a = x.next := by
  rw [nextOf, hc]
  rfl

lemma nextOf_of_not_live {h : Heap (Node T)} {a : ℕ} (ha : ¬ h.Live a) : nextOf h a = none := by
  have hc : h.cell a = none := not_not.mp ha
  rw [nextOf, hc]
  rfl

section

variable [DecidableEq ι]

/-! ### The calls in progress after a step of one thread -/

lemma linking_update {em : ι → Option (EmplacePc T)} {i j : ι} {pc : Option (EmplacePc T)}
    {a b : ℕ} : Linking (Function.update em i pc) j a b ↔
      (j = i ∧ pc = some (.link a b)) ∨ (j ≠ i ∧ Linking em j a b) := by
  by_cases hj : j = i
  · subst hj
    simp [Linking]
  · simp [Linking, hj]

lemma owns_update {em : ι → Option (EmplacePc T)} {i j : ι} {pc : Option (EmplacePc T)}
    {v : T} {n : ℕ} : Owns (Function.update em i pc) j v n ↔
      (j = i ∧ pc = some (.exchange v n)) ∨ (j ≠ i ∧ Owns em j v n) := by
  by_cases hj : j = i
  · subst hj
    simp [Owns]
  · simp [Owns, hj]

lemma linking_update_of_not {em : ι → Option (EmplacePc T)} {i j : ι}
    {pc : Option (EmplacePc T)} {a b : ℕ} (hi : ∀ a b, ¬ Linking em i a b)
    (hpc : ∀ a b, pc ≠ some (.link a b)) :
    Linking (Function.update em i pc) j a b ↔ Linking em j a b := by
  rw [linking_update]
  constructor
  · rintro (⟨-, h⟩ | ⟨-, h⟩)
    · exact absurd h (hpc a b)
    · exact h
  · intro h
    refine Or.inr ⟨?_, h⟩
    rintro rfl
    exact hi a b h

lemma owns_update_of_not {em : ι → Option (EmplacePc T)} {i j : ι}
    {pc : Option (EmplacePc T)} {v : T} {n : ℕ} (hi : ∀ v n, ¬ Owns em i v n)
    (hpc : ∀ v n, pc ≠ some (.exchange v n)) :
    Owns (Function.update em i pc) j v n ↔ Owns em j v n := by
  rw [owns_update]
  constructor
  · rintro (⟨-, h⟩ | ⟨-, h⟩)
    · exact absurd h (hpc v n)
    · exact h
  · intro h
    refine Or.inr ⟨?_, h⟩
    rintro rfl
    exact hi v n h

end

namespace Segmented

variable {h h' : Heap (Node T)} {tail : ℕ} {em em' : ι → Option (EmplacePc T)} {ch : List ℕ}

/-! ### What the chain says -/

lemma tail_mem (hS : Segmented h tail em ch) : tail ∈ ch :=
  List.mem_of_getLast? hS.last

/-- The node after the first one is the one that the `next` of the first names. -/
lemma second_of_next {c n : ℕ} {rest : List ℕ} (hS : Segmented h tail em (c :: rest))
    (hn : nextOf h c = some n) : rest.head? = some n := by
  cases rest with
  | nil =>
    -- the only node is the tail, whose `next` is null
    have hlast := hS.last
    have htail := hS.tail_next
    simp only [List.getLast?_singleton, Option.some.injEq] at hlast
    rw [← hlast, hn] at htail
    cases htail
  | cons b rest =>
    have hfol := (List.isChain_cons_cons.mp hS.follows).1
    rcases hfol with hb | ⟨hnone, -⟩
    · rw [hn] at hb
      cases hb
      rfl
    · rw [hn] at hnone
      cases hnone

/-- When the `next` of the first node is null, it is the only node, or a thread is about to
store the one after it. -/
lemma of_next_none {c : ℕ} {rest : List ℕ} (hS : Segmented h tail em (c :: rest))
    (hn : nextOf h c = none) : rest = [] ∨ ∃ b i, rest.head? = some b ∧ Linking em i c b := by
  cases rest with
  | nil => exact Or.inl rfl
  | cons b rest =>
    have hfol := (List.isChain_cons_cons.mp hS.follows).1
    rcases hfol with hb | ⟨-, i, hi⟩
    · rw [hn] at hb
      cases hb
    · exact Or.inr ⟨b, i, rfl, hi⟩

/-- With no store outstanding the list is linked through. -/
lemma follows_of_quiet (hS : Segmented h tail em ch) (hq : ∀ i a b, ¬ Linking em i a b) :
    ch.IsChain fun a b => nextOf h a = some b := by
  refine hS.follows.imp ?_
  rintro a b (hab | ⟨-, i, hi⟩)
  · exact hab
  · exact absurd hi (hq i a b)

/-! ### What preserves it -/

lemma congr (hS : Segmented h tail em ch)
    (hl : ∀ i a b, Linking em' i a b ↔ Linking em i a b)
    (ho : ∀ i v n, Owns em' i v n ↔ Owns em i v n) : Segmented h tail em' ch where
  nodup := hS.nodup
  last := hS.last
  follows := by
    refine hS.follows.imp ?_
    rintro a b (hab | ⟨hnone, i, hi⟩)
    · exact Or.inl hab
    · exact Or.inr ⟨hnone, i, (hl i a b).mpr hi⟩
  live := hS.live
  tail_next := hS.tail_next
  linking i a b hi := hS.linking i a b ((hl i a b).mp hi)
  linking_inj i j a b b' hi hj :=
    hS.linking_inj i j a b b' ((hl i a b).mp hi) ((hl j a b').mp hj)
  owned i v n hi := hS.owned i v n ((ho i v n).mp hi)
  owned_inj i j v v' n hi hj :=
    hS.owned_inj i j v v' n ((ho i v n).mp hi) ((ho j v' n).mp hj)
  cover a ha := by
    rcases hS.cover a ha with hmem | ⟨i, v, hi⟩
    · exact Or.inl hmem
    · exact Or.inr ⟨i, v, (ho i v a).mpr hi⟩

variable [DecidableEq ι] {i : ι}

lemma alloc {v : T} (hS : Segmented h tail em ch) (hi : em i = some (.alloc v)) :
    Segmented (h.alloc ⟨v, none⟩) tail
      (Function.update em i (some (.exchange v h.fresh))) ch := by
  have hlink : ∀ j a b, Linking (Function.update em i (some (.exchange v h.fresh))) j a b ↔
      Linking em j a b := fun j a b =>
    linking_update_of_not (by simp [Linking, hi]) (by simp)
  have hcell : ∀ a, h.Live a → (h.alloc ⟨v, none⟩).cell a = h.cell a := fun a ha =>
    Heap.alloc_cell_of_live _ ha
  have hnext : ∀ a ∈ ch, nextOf (h.alloc ⟨v, none⟩) a = nextOf h a := fun a ha =>
    nextOf_eq (hcell a (hS.live a ha))
  have hfresh : h.fresh ∉ ch := fun hmem => h.not_live_fresh (hS.live _ hmem)
  refine
    { nodup := hS.nodup, last := hS.last, follows := ?_, live := ?_, tail_next := ?_,
      linking := ?_, linking_inj := ?_, owned := ?_, owned_inj := ?_, cover := ?_ }
  · refine hS.follows.imp_of_mem_imp ?_
    rintro a b ha - hfol
    rw [Follows, hnext a ha]
    rcases hfol with hab | ⟨hnone, j, hj⟩
    · exact Or.inl hab
    · exact Or.inr ⟨hnone, j, (hlink j a b).mpr hj⟩
  · intro a ha
    exact Heap.live_alloc.mpr (Or.inr (hS.live a ha))
  · rw [hnext tail hS.tail_mem]
    exact hS.tail_next
  · intro j a b hj
    obtain ⟨hmem, hne, hnone⟩ := hS.linking j a b ((hlink j a b).mp hj)
    exact ⟨hmem, hne, by rw [hnext a hmem]; exact hnone⟩
  · intro j k a b b' hj hk
    exact hS.linking_inj j k a b b' ((hlink j a b).mp hj) ((hlink k a b').mp hk)
  · intro j w n hj
    rcases owns_update.mp hj with ⟨-, hpc⟩ | ⟨-, hj⟩
    · cases hpc
      exact ⟨hfresh, Heap.alloc_cell_self _⟩
    · obtain ⟨hmem, hc⟩ := hS.owned j w n hj
      have hlive : h.Live n := by rw [Heap.live_iff]; exact ⟨_, hc⟩
      exact ⟨hmem, by rw [hcell n hlive]; exact hc⟩
  · intro j k w w' n hj hk
    -- the new node is not live before the step, and so owned by nobody else
    have hold : ∀ j w, Owns em j w h.fresh → False := fun j w ho =>
      h.not_live_fresh (Heap.live_iff.mpr ⟨_, (hS.owned j w _ ho).2⟩)
    rcases owns_update.mp hj with ⟨rfl, hpc⟩ | ⟨-, hj'⟩
    · cases hpc
      rcases owns_update.mp hk with ⟨rfl, -⟩ | ⟨-, hk⟩
      · rfl
      · exact (hold k w' hk).elim
    · rcases owns_update.mp hk with ⟨rfl, hpc⟩ | ⟨-, hk⟩
      · cases hpc
        exact (hold j w hj').elim
      · exact hS.owned_inj j k w w' n hj' hk
  · intro a ha
    rcases Heap.live_alloc.mp ha with rfl | hlive
    · exact Or.inr ⟨i, v, owns_update.mpr (Or.inl ⟨rfl, rfl⟩)⟩
    · rcases hS.cover a hlive with hmem | ⟨j, w, hj⟩
      · exact Or.inl hmem
      · refine Or.inr ⟨j, w, owns_update.mpr (Or.inr ⟨?_, hj⟩)⟩
        rintro rfl
        rw [Owns, hi] at hj
        cases hj

/-- A thread exchanges its node with `tail_`. -/
lemma exchange {v : T} {n : ℕ} (hS : Segmented h tail em ch)
    (hi : em i = some (.exchange v n)) :
    Segmented h n (Function.update em i (some (.link tail n))) (ch ++ [n]) := by
  obtain ⟨hn, hc⟩ := hS.owned i v n hi
  have hlink : ∀ j a b, Linking em j a b →
      Linking (Function.update em i (some (.link tail n))) j a b := by
    intro j a b hj
    refine linking_update.mpr (Or.inr ⟨?_, hj⟩)
    rintro rfl
    rw [Linking, hi] at hj
    cases hj
  -- nobody else is about to store into the old tail
  have hfree : ∀ j b, ¬ Linking em j tail b := fun j b hj => (hS.linking j tail b hj).2.1 rfl
  refine
    { nodup := ?_, last := by simp, follows := ?_, live := ?_,
      tail_next := nextOf_of_cell hc, linking := ?_, linking_inj := ?_, owned := ?_,
      owned_inj := ?_, cover := ?_ }
  · rw [List.nodup_append]
    refine ⟨hS.nodup, by simp, ?_⟩
    rintro a ha b hb rfl
    rw [List.mem_singleton] at hb
    exact hn (hb ▸ ha)
  · rw [List.isChain_append]
    refine ⟨hS.follows.imp ?_, List.isChain_singleton n, ?_⟩
    · rintro a b (hab | ⟨hnone, j, hj⟩)
      · exact Or.inl hab
      · exact Or.inr ⟨hnone, j, hlink j a b hj⟩
    · intro a ha b hb
      rw [hS.last] at ha
      cases ha
      cases hb
      exact Or.inr ⟨hS.tail_next, i, linking_update.mpr (Or.inl ⟨rfl, rfl⟩)⟩
  · intro a ha
    rcases List.mem_append.mp ha with ha | ha
    · exact hS.live a ha
    · rw [List.mem_singleton] at ha
      rw [ha, Heap.live_iff]
      exact ⟨_, hc⟩
  · intro j a b hj
    rcases linking_update.mp hj with ⟨-, hpc⟩ | ⟨-, hj⟩
    · cases hpc
      refine ⟨by simp [hS.tail_mem], ?_, hS.tail_next⟩
      rintro rfl
      exact hn hS.tail_mem
    · obtain ⟨hmem, -, hnone⟩ := hS.linking j a b hj
      refine ⟨by simp [hmem], ?_, hnone⟩
      rintro rfl
      exact hn hmem
  · intro j k a b b' hj hk
    rcases linking_update.mp hj with ⟨rfl, hpc⟩ | ⟨-, hj'⟩
    · cases hpc
      rcases linking_update.mp hk with ⟨rfl, -⟩ | ⟨-, hk'⟩
      · rfl
      · exact absurd hk' (hfree k b')
    · rcases linking_update.mp hk with ⟨rfl, hpc⟩ | ⟨-, hk'⟩
      · cases hpc
        exact absurd hj' (hfree j b)
      · exact hS.linking_inj j k a b b' hj' hk'
  · intro j w m hj
    rcases owns_update.mp hj with ⟨-, hpc⟩ | ⟨hne, hj'⟩
    · cases hpc
    · obtain ⟨hmem, hcm⟩ := hS.owned j w m hj'
      refine ⟨?_, hcm⟩
      rw [List.mem_append, List.mem_singleton]
      rintro (hm | rfl)
      · exact hmem hm
      · exact hne (hS.owned_inj j i w v m hj' hi)
  · intro j k w w' m hj hk
    rcases owns_update.mp hj with ⟨-, hpc⟩ | ⟨-, hj⟩
    · cases hpc
    · rcases owns_update.mp hk with ⟨-, hpc⟩ | ⟨-, hk⟩
      · cases hpc
      · exact hS.owned_inj j k w w' m hj hk
  · intro a ha
    rcases hS.cover a ha with hmem | ⟨j, w, hj⟩
    · exact Or.inl (by simp [hmem])
    · by_cases hji : j = i
      · subst hji
        rw [Owns, hi] at hj
        cases hj
        exact Or.inl (by simp)
      · exact Or.inr ⟨j, w, owns_update.mpr (Or.inr ⟨hji, hj⟩)⟩

/-- A thread stores its node into the `next` of its predecessor. -/
lemma link {a b : ℕ} (hS : Segmented h tail em ch) (hi : em i = some (.link a b))
    (hm : (h.modify a fun x => { x with next := some b }) = some h') :
    Segmented h' tail (Function.update em i none) ch := by
  obtain ⟨hmem, hne, hnone⟩ := hS.linking i a b hi
  obtain ⟨x, hx, hcell, -, -⟩ := Heap.modify_eq_some hm
  have hself : nextOf h' a = some b := by
    simp [nextOf, hcell]
  have hother : ∀ c, c ≠ a → h'.cell c = h.cell c := fun c => Heap.modify_cell_of_ne hm
  have hlive : ∀ c, h'.Live c ↔ h.Live c := fun c => Heap.live_modify hm
  -- no other thread is about to store into the node
  have hlink : ∀ j c d, Linking (Function.update em i none) j c d →
      c ≠ a ∧ Linking em j c d := by
    intro j c d hj
    rcases linking_update.mp hj with ⟨-, hpc⟩ | ⟨hji, hj'⟩
    · cases hpc
    · refine ⟨?_, hj'⟩
      rintro rfl
      exact hji (hS.linking_inj j i c d b hj' hi)
  have hown : ∀ j v n, Owns (Function.update em i none) j v n ↔ Owns em j v n :=
    fun j v n => owns_update_of_not (by simp [Owns, hi]) (by simp)
  refine
    { nodup := hS.nodup, last := hS.last, follows := ?_,
      live := fun c hc => (hlive c).mpr (hS.live c hc), tail_next := ?_, linking := ?_,
      linking_inj := ?_, owned := ?_, owned_inj := ?_, cover := ?_ }
  · refine hS.follows.imp ?_
    intro c d hfol
    by_cases hc : c = a
    · subst hc
      rcases hfol with hcd | ⟨-, j, hj⟩
      · rw [hnone] at hcd
        cases hcd
      · -- the successor is the one that has just been stored
        obtain rfl := hS.linking_inj j i c d b hj hi
        rw [Linking, hi] at hj
        cases hj
        exact Or.inl hself
    · rw [Follows, nextOf_eq (hother c hc)]
      rcases hfol with hcd | ⟨hcn, j, hj⟩
      · exact Or.inl hcd
      · refine Or.inr ⟨hcn, j, linking_update.mpr (Or.inr ⟨?_, hj⟩)⟩
        rintro rfl
        rw [Linking, hi] at hj
        cases hj
        exact hc rfl
  · rw [nextOf_eq (hother tail (Ne.symm hne))]
    exact hS.tail_next
  · intro j c d hj
    obtain ⟨hca, hj'⟩ := hlink j c d hj
    obtain ⟨hc, hct, hcn⟩ := hS.linking j c d hj'
    exact ⟨hc, hct, by rw [nextOf_eq (hother c hca)]; exact hcn⟩
  · intro j k c d d' hj hk
    exact hS.linking_inj j k c d d' (hlink j c d hj).2 (hlink k c d' hk).2
  · intro j v n hj
    obtain ⟨hn, hc⟩ := hS.owned j v n ((hown j v n).mp hj)
    refine ⟨hn, ?_⟩
    rw [hother n fun hna => hn (hna ▸ hmem)]
    exact hc
  · intro j k v v' n hj hk
    exact hS.owned_inj j k v v' n ((hown j v n).mp hj) ((hown k v' n).mp hk)
  · intro c hc
    rcases hS.cover c ((hlive c).mp hc) with hin | ⟨j, v, hj⟩
    · exact Or.inl hin
    · exact Or.inr ⟨j, v, (hown j v c).mpr hj⟩

omit [DecidableEq ι] in
lemma delete {c n : ℕ} {rest : List ℕ} (hS : Segmented h tail em (c :: rest))
    (hn : nextOf h c = some n) (hd : h.delete c = some h') : Segmented h' tail em rest := by
  obtain ⟨-, hcell, -, -⟩ := Heap.delete_eq_some hd
  obtain ⟨hc, hnodup⟩ := List.nodup_cons.mp hS.nodup
  have hother : ∀ a, a ≠ c → h'.cell a = h.cell a := fun a => Heap.delete_cell_of_ne hd
  have hne : ∀ a ∈ rest, a ≠ c := fun a ha hac => hc (hac ▸ ha)
  have hlast : rest.getLast? = some tail := by
    have hsecond := hS.second_of_next hn
    have hl := hS.last
    cases rest with
    | nil => cases hsecond
    | cons b rest =>
      rw [List.getLast?_cons_cons] at hl
      exact hl
  have htail : tail ∈ rest := List.mem_of_getLast? hlast
  refine
    { nodup := hnodup, last := hlast, follows := ?_, live := ?_, tail_next := ?_,
      linking := ?_, linking_inj := hS.linking_inj, owned := ?_,
      owned_inj := hS.owned_inj, cover := ?_ }
  · refine hS.follows.tail.imp_of_mem_imp ?_
    rintro a b ha - hfol
    rw [Follows, nextOf_eq (hother a (hne a ha))]
    exact hfol
  · intro a ha
    rw [Heap.Live, hother a (hne a ha)]
    exact hS.live a (List.mem_cons_of_mem c ha)
  · rw [nextOf_eq (hother tail (hne tail htail))]
    exact hS.tail_next
  · intro j a b hj
    obtain ⟨hmem, hat, hnone⟩ := hS.linking j a b hj
    -- nobody is about to store into the deleted node: its `next` is not null
    have hac : a ≠ c := by
      rintro rfl
      rw [hn] at hnone
      cases hnone
    refine ⟨(List.mem_cons.mp hmem).resolve_left hac, hat, ?_⟩
    rw [nextOf_eq (hother a hac)]
    exact hnone
  · intro j v m hj
    obtain ⟨hm, hcm⟩ := hS.owned j v m hj
    rw [List.mem_cons, not_or] at hm
    exact ⟨hm.2, by rw [hother m hm.1]; exact hcm⟩
  · intro a ha
    have hac : a ≠ c := by
      rintro rfl
      exact ha (by rw [hcell, Function.update_self])
    have hlive : h.Live a := by rw [Heap.Live, ← hother a hac]; exact ha
    rcases hS.cover a hlive with hmem | hown
    · exact Or.inl ((List.mem_cons.mp hmem).resolve_left hac)
    · exact Or.inr hown

omit [DecidableEq ι] in
lemma move {c : ℕ} {d : T} (hS : Segmented h tail em ch) (hc : c ∈ ch)
    (hm : (h.modify c fun x => { x with data := d }) = some h') : Segmented h' tail em ch := by
  obtain ⟨x, hx, hcell, -, -⟩ := Heap.modify_eq_some hm
  have hother : ∀ a, a ≠ c → h'.cell a = h.cell a := fun a => Heap.modify_cell_of_ne hm
  have hnext : ∀ a, nextOf h' a = nextOf h a := by
    intro a
    by_cases ha : a = c
    · subst ha
      simp [nextOf, hcell, hx]
    · exact nextOf_eq (hother a ha)
  have hlive : ∀ a, h'.Live a ↔ h.Live a := fun a => Heap.live_modify hm
  refine
    { nodup := hS.nodup, last := hS.last, follows := ?_,
      live := fun a ha => (hlive a).mpr (hS.live a ha),
      tail_next := by rw [hnext]; exact hS.tail_next, linking := ?_,
      linking_inj := hS.linking_inj, owned := ?_, owned_inj := hS.owned_inj,
      cover := fun a ha => hS.cover a ((hlive a).mp ha) }
  · refine hS.follows.imp ?_
    intro a b hfol
    rw [Follows, hnext]
    exact hfol
  · intro i a b hi
    rw [hnext]
    exact hS.linking i a b hi
  · intro i v n hi
    obtain ⟨hn, hcn⟩ := hS.owned i v n hi
    refine ⟨hn, ?_⟩
    rw [hother n fun hnc => hn (hnc ▸ hc)]
    exact hcn

end Segmented

end LockeFreeQueue

end EventManager
