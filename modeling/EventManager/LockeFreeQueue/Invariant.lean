import EventManager.LockeFreeQueue.Chain

/-!
# The invariant of the queue

The nodes of the elements that were emplaced and not yet delivered, in the order of their
exchanges and with the node that the list begins with in front of them, are the segmented
chain (`Threads.Inv.segmented`).  While `swap` is between the `delete` of a node and the
move of the data of the next, that next one is the front already, though its element is
still to be delivered.
-/

namespace EventManager

open Steps

namespace LockeFreeQueue

/-- `data` of the node at `a`. -/
def dataOf {T : Type} (h : Heap (Node T)) (a : ℕ) : Option T := (h.cell a).map Node.data

namespace Threads

variable {T ι : Type}

/-- The elements that were emplaced and that `swap` has not yet delivered. -/
def undelivered (s : Threads ι T) : List (Exchange ι T) := s.exchanged.drop s.out.length

/-- The nodes of a list of elements, behind the node that a call of `swap` at `pc` has in
front of them. -/
def chainFrom (head : ℕ) (pc : Option SwapPc) (nodes : List ℕ) : List ℕ :=
  match pc with
  | none => head :: nodes
  | some (.load cur) => cur :: nodes
  | some (.delete cur _) => cur :: nodes
  | some (.move _) => nodes
  | some (.finish cur) => cur :: nodes

/-- The list, from the node that `swap` is at. -/
def chain (s : Threads ι T) : List ℕ :=
  chainFrom s.queue.head s.swap (s.undelivered.map Exchange.node)

/-- The invariant of the queue. -/
structure Inv (s : Threads ι T) : Prop where
  segmented : Segmented s.queue.heap s.queue.tail s.emplace s.chain
  le : s.out.length ≤ s.exchanged.length
  data : ∀ e ∈ s.undelivered, dataOf s.queue.heap e.node = some e.value
  deleting : ∀ cur next, s.swap = some (.delete cur next) →
    nextOf s.queue.heap cur = some next
  moving : ∀ cur, s.swap = some (.move cur) →
    ∃ e rest, s.undelivered = e :: rest ∧ e.node = cur

/-! ### The chain and the elements after a step -/

lemma chainFrom_append (head : ℕ) (pc : Option SwapPc) (nodes nodes' : List ℕ) :
    chainFrom head pc (nodes ++ nodes') = chainFrom head pc nodes ++ nodes' := by
  rcases pc with _ | pc
  · rfl
  · cases pc <;> rfl

lemma mem_chainFrom {head : ℕ} {pc : Option SwapPc} {nodes : List ℕ} {a : ℕ}
    (ha : a ∈ nodes) : a ∈ chainFrom head pc nodes := by
  rcases pc with _ | pc
  · exact List.mem_cons_of_mem head ha
  · cases pc with
    | load cur => exact List.mem_cons_of_mem cur ha
    | delete cur next => exact List.mem_cons_of_mem cur ha
    | move cur => exact ha
    | finish cur => exact List.mem_cons_of_mem cur ha

lemma undelivered_append {s t : Threads ι T} {l : List (Exchange ι T)}
    (hle : s.out.length ≤ s.exchanged.length) (hx : t.exchanged = s.exchanged ++ l)
    (ho : t.out = s.out) : t.undelivered = s.undelivered ++ l := by
  rw [undelivered, undelivered, hx, ho, List.drop_append_of_le_length hle]

lemma undelivered_tail {s t : Threads ι T} {e : Exchange ι T} {rest : List (Exchange ι T)}
    {v : T} (hs : s.undelivered = e :: rest) (hx : t.exchanged = s.exchanged)
    (ho : t.out = s.out ++ [v]) : t.undelivered = rest := by
  rw [undelivered, hx, ho, List.length_append, List.length_singleton, ← List.drop_drop]
  rw [undelivered] at hs
  rw [hs, List.drop_one, List.tail_cons]

lemma lt_of_undelivered {s : Threads ι T} {e : Exchange ι T} {rest : List (Exchange ι T)}
    (hs : s.undelivered = e :: rest) : s.out.length < s.exchanged.length := by
  by_contra hge
  rw [undelivered, List.drop_eq_nil_of_le (by omega)] at hs
  cases hs

lemma undelivered_mem_chain {s : Threads ι T} {e : Exchange ι T} (he : e ∈ s.undelivered) :
    e.node ∈ s.chain :=
  mem_chainFrom (List.mem_map_of_mem he)

/-- The data of the nodes outlives a step that keeps the data of the live nodes. -/
lemma data_of_live {s : Threads ι T} (hI : s.Inv) {h' : Heap (Node T)}
    (hd : ∀ a, s.queue.heap.Live a → dataOf h' a = dataOf s.queue.heap a)
    {e : Exchange ι T} (he : e ∈ s.undelivered) : dataOf h' e.node = some e.value := by
  rw [hd e.node (hI.segmented.live _ (undelivered_mem_chain he))]
  exact hI.data e he

/-! ### Preservation -/

lemma inv_callSwap {s : Threads ι T} (hI : s.Inv) (hs : s.swap = none) :
    Inv { s with swap := some (.load s.queue.head) } where
  segmented := by
    have hseg := hI.segmented
    rw [chain, hs] at hseg
    exact hseg
  le := hI.le
  data := hI.data
  deleting cur next h := by cases h
  moving cur h := by cases h

section

variable [DecidableEq ι]

lemma inv_callEmplace {s : Threads ι T} {i : ι} {args : T} {calls : ι → List T} (hI : s.Inv)
    (hi : s.emplace i = none) :
    Inv { s with
      emplace := Function.update s.emplace i (some (.alloc args)), calls := calls } where
  segmented := by
    refine hI.segmented.congr ?_ ?_
    · exact fun j a b => linking_update_of_not (by simp [Linking, hi]) (by simp)
    · exact fun j v n => owns_update_of_not (by simp [Owns, hi]) (by simp)
  le := hI.le
  data := hI.data
  deleting := hI.deleting
  moving := hI.moving

lemma inv_alloc {s : Threads ι T} {i : ι} {args : T} (hI : s.Inv)
    (hi : s.emplace i = some (.alloc args)) :
    Inv { s with
      queue := { s.queue with heap := s.queue.heap.alloc ⟨args, none⟩ }
      emplace := Function.update s.emplace i (some (.exchange args s.queue.heap.fresh)) } where
  segmented := hI.segmented.alloc hi
  le := hI.le
  data e he := by
    refine data_of_live hI ?_ he
    intro a ha
    rw [dataOf, dataOf, Heap.alloc_cell_of_live _ ha]
  deleting cur next hs := by
    have hn := hI.deleting cur next hs
    have hlive : s.queue.heap.Live cur := by
      by_contra hdead
      rw [nextOf_of_not_live hdead] at hn
      cases hn
    rw [nextOf_eq (Heap.alloc_cell_of_live _ hlive)]
    exact hn
  moving := hI.moving

lemma inv_exchange {s : Threads ι T} {i : ι} {args : T} {n : ℕ} (hI : s.Inv)
    (hi : s.emplace i = some (.exchange args n)) :
    Inv { s with
      queue := { s.queue with tail := n }
      emplace := Function.update s.emplace i (some (.link s.queue.tail n))
      exchanged := s.exchanged ++ [⟨i, n, args⟩] } := by
  set t : Threads ι T := { s with
    queue := { s.queue with tail := n }
    emplace := Function.update s.emplace i (some (.link s.queue.tail n))
    exchanged := s.exchanged ++ [⟨i, n, args⟩] } with ht
  have hund : t.undelivered = s.undelivered ++ [⟨i, n, args⟩] :=
    undelivered_append hI.le rfl rfl
  have hchain : t.chain = s.chain ++ [n] := by
    rw [chain, hund, List.map_append]
    exact chainFrom_append _ _ _ _
  refine
    { segmented := ?_, le := ?_, data := ?_, deleting := hI.deleting, moving := ?_ }
  · rw [hchain]
    exact hI.segmented.exchange hi
  · have hle := hI.le
    simp only [ht, List.length_append, List.length_singleton]
    omega
  · intro e he
    rw [hund, List.mem_append, List.mem_singleton] at he
    rcases he with he | rfl
    · exact hI.data e he
    · have hc := (hI.segmented.owned i args n hi).2
      rw [dataOf, hc]
      rfl
  · intro cur hs
    obtain ⟨e, rest, hu, hcur⟩ := hI.moving cur hs
    exact ⟨e, rest ++ [⟨i, n, args⟩], by rw [hund, hu, List.cons_append], hcur⟩

lemma inv_link {s : Threads ι T} {i : ι} {prev n : ℕ} {h' : Heap (Node T)} (hI : s.Inv)
    (hi : s.emplace i = some (.link prev n))
    (hm : (s.queue.heap.modify prev fun x => { x with next := some n }) = some h') :
    Inv { s with
      queue := { s.queue with heap := h' }
      emplace := Function.update s.emplace i none } := by
  obtain ⟨x, hx, hcell, -, -⟩ := Heap.modify_eq_some hm
  refine
    { segmented := hI.segmented.link hi hm, le := hI.le, data := ?_, deleting := ?_,
      moving := hI.moving }
  · intro e he
    refine data_of_live hI ?_ he
    intro a _
    by_cases ha : a = prev
    · subst ha
      simp [dataOf, hcell, hx]
    · rw [dataOf, dataOf, Heap.modify_cell_of_ne hm ha]
  · intro cur next hs
    have hn := hI.deleting cur next hs
    -- the store goes to a node whose `next` is null
    have hne : cur ≠ prev := by
      rintro rfl
      rw [(hI.segmented.linking i cur n hi).2.2] at hn
      cases hn
    rw [nextOf, hcell, Function.update_of_ne hne]
    exact hn

lemma inv_emplace {s : Threads ι T} {i : ι} {pc : EmplacePc T} {q : LockeFreeQueue T}
    {pc' : Option (EmplacePc T)} (hI : s.Inv) (hi : s.emplace i = some pc)
    (h : s.queue.emplaceBack pc = some (q, pc')) :
    Inv { s with
      queue := q
      emplace := Function.update s.emplace i pc'
      exchanged := s.exchanged ++ exchangeOf i pc } := by
  rcases emplaceBack_cases h with ⟨args, rfl, rfl, rfl⟩ | ⟨args, n, rfl, rfl, rfl⟩ |
    ⟨prev, n, h', rfl, hm, rfl, rfl⟩
  · simp only [exchangeOf, List.append_nil]
    exact inv_alloc hI hi
  · exact inv_exchange hI hi
  · simp only [exchangeOf, List.append_nil]
    exact inv_link hI hi hm

end

section

variable [Inhabited T]

lemma inv_start : (start ι T).Inv where
  segmented :=
    { nodup := by simp [chain, chainFrom, start, undelivered]
      last := rfl
      follows := List.isChain_singleton 0
      live := by simp [chain, chainFrom, start, undelivered, create, Heap.live_alloc,
        Heap.empty]
      tail_next := rfl
      linking := fun i a b h => by cases h
      linking_inj := fun i j a b b' h => by cases h
      owned := fun i v n h => by cases h
      owned_inj := fun i j v v' n h => by cases h
      cover := by
        intro a ha
        rcases Heap.live_alloc.mp ha with rfl | hlive
        · exact Or.inl (List.mem_singleton.mpr rfl)
        · exact absurd rfl hlive }
  le := le_rfl
  data e he := by simp [undelivered, start] at he
  deleting cur next h := by cases h
  moving cur h := by cases h

lemma inv_swap {s : Threads ι T} {pc : SwapPc} {q : LockeFreeQueue T} {out : List T}
    {pc' : Option SwapPc} (hI : s.Inv) (hs : s.swap = some pc)
    (h : s.queue.swap pc = some (q, out, pc')) :
    Inv { s with queue := q, swap := pc', out := s.out ++ out } := by
  have hseg := hI.segmented
  rw [chain, hs] at hseg
  rcases swap_cases h with ⟨cur, x, rfl, hx, hn, rfl, rfl, rfl⟩ |
    ⟨cur, x, next, rfl, hx, hn, rfl, rfl, rfl⟩ | ⟨cur, next, h', rfl, hd, rfl, rfl, rfl⟩ |
    ⟨cur, x, h', rfl, hx, hm, rfl, rfl, rfl⟩ | ⟨cur, rfl, rfl, rfl, rfl⟩
  · -- the loop ends
    rw [List.append_nil]
    exact ⟨hseg, hI.le, hI.data, fun _ _ h => (by cases h), fun _ h => (by cases h)⟩
  · -- the loop goes on
    rw [List.append_nil]
    refine ⟨hseg, hI.le, hI.data, ?_, fun _ h => by cases h⟩
    intro c n hpc
    cases hpc
    rw [nextOf_of_cell hx]
    exact hn
  · -- `delete`: the node after the deleted one is the first undelivered
    rw [List.append_nil]
    have hnext := hI.deleting cur next hs
    have hrest := hseg.delete hnext hd
    refine ⟨hrest, hI.le, ?_, fun _ _ h => (by cases h), ?_⟩
    · intro e he
      have hne : e.node ≠ cur := by
        rintro rfl
        exact (List.nodup_cons.mp hseg.nodup).1 (List.mem_map_of_mem he)
      rw [dataOf, Heap.delete_cell_of_ne hd hne]
      exact hI.data e he
    · intro c hc
      cases hc
      have hsecond := hseg.second_of_next hnext
      rw [List.head?_map, Option.map_eq_some_iff] at hsecond
      obtain ⟨e, he, hnode⟩ := hsecond
      obtain ⟨rest, hu⟩ := List.head?_eq_some_iff.mp he
      exact ⟨e, rest, hu, hnode⟩
  · -- the move: the first undelivered element is delivered
    obtain ⟨e, rest, hu, rfl⟩ := hI.moving cur hs
    have hund := undelivered_tail
      (t := { s with
        queue := { s.queue with heap := h' }, swap := some (.load e.node)
        out := s.out ++ [x.data] }) hu rfl rfl
    rw [chainFrom, hu, List.map_cons] at hseg
    have hlt := lt_of_undelivered hu
    refine ⟨?_, ?_, ?_, fun _ _ h => (by cases h), fun _ h => (by cases h)⟩
    · rw [chain, hund]
      exact hseg.move (by simp) hm
    · simp only [List.length_append, List.length_singleton]
      omega
    · intro e' he'
      rw [hund] at he'
      have hne : e'.node ≠ e.node := by
        intro heq
        exact (List.nodup_cons.mp hseg.nodup).1 (heq ▸ List.mem_map_of_mem he')
      rw [dataOf, Heap.modify_cell_of_ne hm hne]
      exact hI.data e' (by rw [hu]; exact List.mem_cons_of_mem e he')
  · -- `head_ = cur`
    rw [List.append_nil]
    exact ⟨hseg, hI.le, hI.data, fun _ _ h => (by cases h), fun _ h => (by cases h)⟩

end

variable [DecidableEq ι] [Inhabited T]

lemma inv_step {s t : Threads ι T} {a : Action ι T} (hI : s.Inv)
    (h : (threads ι T).next s a = some t) : t.Inv := by
  rcases threads_cases h with ⟨i, args, -, hi, rfl⟩ | ⟨i, pc, q, pc', -, hi, hq, rfl⟩ |
    ⟨-, hs, rfl⟩ | ⟨pc, q, out, pc', -, hs, hq, rfl⟩
  · exact inv_callEmplace hI hi
  · exact inv_emplace hI hi hq
  · exact inv_callSwap hI hs
  · exact inv_swap hI hs hq

theorem inv_of_reachable {s : Threads ι T} (h : (threads ι T).Reachable s) : s.Inv := by
  refine h.invariant (I := Inv) ?_ ?_
  · rintro s rfl
    exact inv_start
  · intro s a t hI hs
    exact inv_step hI hs

end Threads

end LockeFreeQueue

end EventManager
