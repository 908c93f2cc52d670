import EventManager.LockeFreeQueue.Invariant
import EventManager.Lib.Fifo

/-!
# What the queue delivers, and when

The queue is a first-in first-out channel whose order is that of the exchanges on `tail_`
(`delivery_in_order`).  It does not deliver every element whose `emplace_back` has returned:
a thread that stays between its exchange and its store hides the elements behind its own
(`not_realTime`).  It does deliver the elements that no such thread hides
(`delivered_of_returned`).
-/

namespace EventManager

open Steps Machine

namespace LockeFreeQueue

namespace Threads

variable {T ι : Type}

/-- The elements that were emplaced, in the order of the exchanges. -/
def emplaced (s : Threads ι T) : List T := s.exchanged.map Exchange.value

/-- The elements that were emplaced and not delivered. -/
def waiting (s : Threads ι T) : List T := s.undelivered.map Exchange.value

/-- The element at position `k` has been emplaced, and the thread that emplaced it is still
before its store. -/
def Stalled (s : Threads ι T) (k : ℕ) : Prop :=
  ∃ e i prev, s.exchanged[k]? = some e ∧ Linking s.emplace i prev e.node

/-- The call of `emplace_back` that emplaced the element at position `k` has returned. -/
def Returned (s : Threads ι T) (k : ℕ) : Prop := k < s.exchanged.length ∧ ¬ s.Stalled k

/-- The step reads a null `next` and so ends the loop of `swap`. -/
def StopsAt (s : Threads ι T) (a : Action ι T) : Prop :=
  a = .swap ∧ ∃ cur, s.swap = some (.load cur) ∧ nextOf s.queue.heap cur = none

/-- The element that is at position `k` in `s` has been appended to an `out` list in `t`. -/
def Delivered (s : Threads ι T) (k : ℕ) (t : Threads ι T) : Prop :=
  ∃ e, s.exchanged[k]? = some e ∧ t.out[k]? = some e.value

section

variable [DecidableEq ι]

/-- The elements that the thread `i` has emplaced. -/
def emplacedBy (s : Threads ι T) (i : ι) : List T :=
  (s.exchanged.filter (·.thread = i)).map Exchange.value

end

/-- The argument of a call of `emplace_back` that has not come to its exchange. -/
def pendingArg : Option (EmplacePc T) → List T
  | some (.alloc args) => [args]
  | some (.exchange args _) => [args]
  | _ => []

variable [DecidableEq ι] [Inhabited T]

/-- The call of `swap` that begins in `s` returns in `t`, after the steps `tr`. -/
structure SwapRun (s : Threads ι T) (tr : List (Threads ι T × Action ι T))
    (t : Threads ι T) : Prop where
  run : (threads ι T).Run s ((s, .callSwap) :: tr) t
  running : ∀ p ∈ tr, p.1.swap ≠ none
  returned : t.swap = none

/-! ### The queue is a channel -/

lemma effect_step {s t : Threads ι T} {a : Action ι T} (h : (threads ι T).Reachable s)
    (ha : (threads ι T).next s a = some t) : Fifo.Effect emplaced out waiting s t := by
  have hI := inv_of_reachable h
  rcases threads_cases ha with ⟨i, args, -, -, rfl⟩ | ⟨i, pc, q, pc', -, hi, hq, rfl⟩ |
    ⟨-, -, rfl⟩ | ⟨pc, q, out, pc', -, hs, hq, rfl⟩
  · exact .stay rfl rfl rfl
  · cases pc with
    | alloc args =>
      refine .stay ?_ rfl ?_
      · simp [emplaced, exchangeOf]
      · simp [waiting, undelivered, exchangeOf]
    | exchange args n =>
      have hund : undelivered { s with
          queue := q, emplace := Function.update s.emplace i pc'
          exchanged := s.exchanged ++ [⟨i, n, args⟩] } = s.undelivered ++ [⟨i, n, args⟩] :=
        undelivered_append hI.le rfl rfl
      refine .send args ?_ rfl ?_
      · simp [emplaced, exchangeOf]
      · rw [waiting, exchangeOf, hund, List.map_append]
        rfl
    | link prev n =>
      refine .stay ?_ rfl ?_
      · simp [emplaced, exchangeOf]
      · simp [waiting, undelivered, exchangeOf]
  · exact .stay rfl rfl rfl
  · have hstay : Fifo.Effect emplaced Threads.out waiting s
        { s with queue := q, swap := pc', out := s.out ++ [] } := by
      refine .stay rfl ?_ ?_
      · simp
      · simp [waiting, undelivered]
    rcases swap_cases hq with ⟨cur, x, rfl, -, -, rfl, rfl, rfl⟩ |
      ⟨cur, x, next, rfl, -, -, rfl, rfl, rfl⟩ | ⟨cur, next, h', rfl, -, rfl, rfl, rfl⟩ |
      ⟨cur, x, h', rfl, hx, -, rfl, rfl, rfl⟩ | ⟨cur, rfl, rfl, rfl, rfl⟩
    · exact hstay
    · exact hstay
    · exact hstay
    · -- the data of the first undelivered node is what was emplaced with it
      obtain ⟨e, rest, hu, rfl⟩ := hI.moving cur hs
      have hd := hI.data e (by simp [hu])
      rw [dataOf, hx] at hd
      have hv : x.data = e.value := Option.some.inj hd
      have hund : undelivered { s with
          queue := { s.queue with heap := h' }, swap := some (.load e.node)
          out := s.out ++ [x.data] } = rest := undelivered_tail hu rfl rfl
      refine .receive x.data rfl rfl ?_
      rw [waiting, waiting, hund, hu, List.map_cons, hv]
    · exact hstay

lemma simulates_fifo : Simulation (threads ι T) (Fifo.machine T) fun s f =>
    (threads ι T).Reachable s ∧ Fifo.View emplaced out waiting s f := by
  refine Fifo.simulation ?_ fun _ _ _ hs _ ha => effect_step hs ha
  rintro s rfl
  exact ⟨rfl, rfl, rfl⟩

lemma prefix_emplaced {s : Threads ι T} (h : (threads ι T).Reachable s) : s.out <+: s.emplaced :=
  Fifo.reachable_prefix simulates_fifo h

/-! ### The order of a thread's own calls -/

omit [Inhabited T] in
lemma emplacedBy_append (s : Threads ι T) (i : ι) (pc : EmplacePc T) (j : ι) :
    ((s.exchanged ++ exchangeOf i pc).filter (·.thread = j)).map Exchange.value =
      s.emplacedBy j ++ if i = j then (exchangeOf i pc).map Exchange.value else [] := by
  rw [List.filter_append, List.map_append, emplacedBy]
  congr 1
  cases pc with
  | alloc args => simp [exchangeOf]
  | exchange args n =>
    by_cases hij : i = j
    · simp [exchangeOf, hij]
    · simp [exchangeOf, hij]
  | link prev n => simp [exchangeOf]

/-- The calls of a thread are those that it has exchanged, in that order, and the one that
it is in and has not. -/
lemma calls_eq {s : Threads ι T} (h : (threads ι T).Reachable s) (j : ι) :
    s.calls j = s.emplacedBy j ++ pendingArg (s.emplace j) := by
  refine h.invariant
    (I := fun s => s.calls j = s.emplacedBy j ++ pendingArg (s.emplace j)) ?_ ?_
  · rintro s rfl
    rfl
  · intro s a t hI ha
    rcases threads_cases ha with ⟨i, args, -, hi, rfl⟩ | ⟨i, pc, q, pc', -, hi, hq, rfl⟩ |
      ⟨-, -, rfl⟩ | ⟨pc, q, out, pc', -, -, -, rfl⟩
    · by_cases hij : i = j
      · subst hij
        rw [hi] at hI
        simpa [emplacedBy, pendingArg] using hI
      · have hji : j ≠ i := Ne.symm hij
        simpa [Function.update_of_ne hji, emplacedBy] using hI
    · rw [emplacedBy, emplacedBy_append]
      by_cases hij : i = j
      · subst hij
        rw [hi] at hI
        rcases emplaceBack_cases hq with ⟨args, rfl, -, rfl⟩ | ⟨args, n, rfl, -, rfl⟩ |
          ⟨prev, n, h', rfl, -, -, rfl⟩
        · simpa [exchangeOf, pendingArg] using hI
        · simpa [exchangeOf, pendingArg] using hI
        · simpa [exchangeOf, pendingArg] using hI
      · have hji : j ≠ i := Ne.symm hij
        simpa [Function.update_of_ne hji, hij] using hI
    · exact hI
    · exact hI

/-! ### Nodes are exchanged once -/

/-- No thread is about to exchange a node that has been exchanged. -/
structure Distinct (s : Threads ι T) : Prop where
  lt : ∀ e ∈ s.exchanged, e.node < s.queue.heap.fresh
  notOwned : ∀ e ∈ s.exchanged, ∀ i v, ¬ Owns s.emplace i v e.node

omit [Inhabited T] in
lemma distinct_emplace {s : Threads ι T} {i : ι} {pc : EmplacePc T} {q : LockeFreeQueue T}
    {pc' : Option (EmplacePc T)} (hI : s.Inv) (hD : s.Distinct)
    (hi : s.emplace i = some pc) (h : s.queue.emplaceBack pc = some (q, pc')) :
    Distinct { s with
      queue := q
      emplace := Function.update s.emplace i pc'
      exchanged := s.exchanged ++ exchangeOf i pc } := by
  rcases emplaceBack_cases h with ⟨args, rfl, rfl, rfl⟩ | ⟨args, n, rfl, rfl, rfl⟩ |
    ⟨prev, n, h', rfl, hm, rfl, rfl⟩
  · simp only [exchangeOf, List.append_nil]
    constructor
    · intro e he
      have hlt := hD.lt e he
      simp only [Heap.alloc_fresh]
      omega
    · intro e he j v hj
      rcases owns_update.mp hj with ⟨-, hpc⟩ | ⟨-, hj'⟩
      · -- the new node has an address that was not handed out before
        have hlt := hD.lt e he
        simp only [Option.some.injEq, EmplacePc.exchange.injEq] at hpc
        omega
      · exact hD.notOwned e he j v hj'
  · obtain ⟨-, hc⟩ := hI.segmented.owned i args n hi
    have hn : s.queue.heap.Live n := Heap.live_iff.mpr ⟨_, hc⟩
    constructor
    · intro e he
      rcases List.mem_append.mp he with he | he
      · exact hD.lt e he
      · rw [exchangeOf, List.mem_singleton] at he
        rw [he]
        exact s.queue.heap.lt_fresh hn
    · intro e he j v hj
      rcases owns_update.mp hj with ⟨-, hpc⟩ | ⟨hji, hj'⟩
      · cases hpc
      · rcases List.mem_append.mp he with he | he
        · exact hD.notOwned e he j v hj'
        · rw [exchangeOf, List.mem_singleton] at he
          subst he
          exact hji (hI.segmented.owned_inj j i v args n hj' hi)
  · obtain ⟨x, -, -, hfresh, -⟩ := Heap.modify_eq_some hm
    simp only [exchangeOf, List.append_nil]
    constructor
    · intro e he
      have hlt := hD.lt e he
      simp only [hfresh]
      omega
    · intro e he j v hj
      rcases owns_update.mp hj with ⟨-, hpc⟩ | ⟨-, hj'⟩
      · cases hpc
      · exact hD.notOwned e he j v hj'

omit [DecidableEq ι] in
lemma distinct_swap {s : Threads ι T} {pc : SwapPc} {q : LockeFreeQueue T} {out : List T}
    {pc' : Option SwapPc} (hD : s.Distinct) (h : s.queue.swap pc = some (q, out, pc')) :
    Distinct { s with queue := q, swap := pc', out := s.out ++ out } := by
  have hfresh : q.heap.fresh = s.queue.heap.fresh := by
    rcases swap_cases h with ⟨cur, x, rfl, -, -, rfl, -, -⟩ |
      ⟨cur, x, next, rfl, -, -, rfl, -, -⟩ | ⟨cur, next, h', rfl, hd, rfl, -, -⟩ |
      ⟨cur, x, h', rfl, -, hm, rfl, -, -⟩ | ⟨cur, rfl, rfl, -, -⟩
    · rfl
    · rfl
    · exact (Heap.delete_eq_some hd).2.2.1
    · obtain ⟨x, -, -, hf, -⟩ := Heap.modify_eq_some hm
      exact hf
    · rfl
  refine ⟨?_, hD.notOwned⟩
  intro e he
  rw [hfresh]
  exact hD.lt e he

lemma distinct_of_reachable {s : Threads ι T} (h : (threads ι T).Reachable s) :
    s.Distinct := by
  refine h.invariant_of_reachable (I := Distinct) ?_ ?_
  · rintro s rfl
    exact ⟨by simp [start], by simp [start]⟩
  · intro s a t hs hD ha
    rcases threads_cases ha with ⟨i, args, -, hi, rfl⟩ | ⟨i, pc, q, pc', -, hi, hq, rfl⟩ |
      ⟨-, -, rfl⟩ | ⟨pc, q, out, pc', -, -, hq, rfl⟩
    · refine ⟨hD.lt, ?_⟩
      intro e he j v hj
      rcases owns_update.mp hj with ⟨-, hpc⟩ | ⟨-, hj'⟩
      · cases hpc
      · exact hD.notOwned e he j v hj'
    · exact distinct_emplace (inv_of_reachable hs) hD hi hq
    · exact ⟨hD.lt, hD.notOwned⟩
    · exact distinct_swap hD hq

/-! ### Where `swap` stops -/

/-- Where `swap` stops everything has been delivered, or a thread is before the store that
would have led it on. -/
lemma stalled_of_stopsAt {s : Threads ι T} {a : Action ι T} (h : (threads ι T).Reachable s)
    (hstop : s.StopsAt a) : s.undelivered = [] ∨ s.Stalled s.out.length := by
  obtain ⟨-, cur, hs, hn⟩ := hstop
  have hseg := (inv_of_reachable h).segmented
  rw [chain, hs] at hseg
  rcases hseg.of_next_none hn with hnil | ⟨b, i, hb, hi⟩
  · exact Or.inl (List.map_eq_nil_iff.mp hnil)
  · rw [List.head?_map, Option.map_eq_some_iff] at hb
    obtain ⟨e, he, rfl⟩ := hb
    rw [undelivered, List.head?_drop] at he
    exact Or.inr ⟨e, i, cur, he, hi⟩

lemma returned_step {s t : Threads ι T} {a : Action ι T} {k : ℕ} {e : Exchange ι T}
    (h : (threads ι T).Reachable s) (hk : s.Returned k) (he : s.exchanged[k]? = some e)
    (ha : (threads ι T).next s a = some t) :
    t.Returned k ∧ t.exchanged[k]? = some e := by
  obtain ⟨hlt, hstall⟩ := hk
  have hD := distinct_of_reachable h
  have hfree : ∀ i prev, ¬ Linking s.emplace i prev e.node :=
    fun i prev hi => hstall ⟨e, i, prev, he, hi⟩
  have hmem : e ∈ s.exchanged := List.mem_of_getElem? he
  rcases threads_cases ha with ⟨i, args, -, hi, rfl⟩ | ⟨i, pc, q, pc', -, hi, hq, rfl⟩ |
    ⟨-, -, rfl⟩ | ⟨pc, q, out, pc', -, -, -, rfl⟩
  · refine ⟨⟨hlt, ?_⟩, he⟩
    rintro ⟨e', j, prev, he', hj⟩
    rcases linking_update.mp hj with ⟨-, hpc⟩ | ⟨-, hj'⟩
    · cases hpc
    · exact hstall ⟨e', j, prev, he', hj'⟩
  · have hget : (s.exchanged ++ exchangeOf i pc)[k]? = some e := by
      rw [List.getElem?_append_left hlt]
      exact he
    refine ⟨⟨?_, ?_⟩, hget⟩
    · simp only [List.length_append]
      omega
    · rintro ⟨e', j, prev, he', hj⟩
      rw [hget] at he'
      cases he'
      rcases linking_update.mp hj with ⟨-, hpc⟩ | ⟨-, hj'⟩
      · -- a new store is outstanding only for a node that was not exchanged before
        rcases emplaceBack_cases hq with ⟨args, rfl, -, rfl⟩ | ⟨args, n, rfl, -, rfl⟩ |
          ⟨prev', n, h', rfl, -, -, rfl⟩
        · cases hpc
        · cases hpc
          exact hD.notOwned e hmem i args hi
        · cases hpc
      · exact hfree j prev hj'
  · exact ⟨⟨hlt, hstall⟩, he⟩
  · exact ⟨⟨hlt, hstall⟩, he⟩

/-- `swap` has passed its last load of `next`. -/
def Leaving : Option SwapPc → Prop
  | none => True
  | some (.finish _) => True
  | _ => False

/-- When `swap` is past its last load it has delivered the element at position `k`, if no
step has read a null `next` while an earlier element was stalled. -/
lemma leaving_step {s t : Threads ι T} {a : Action ι T} {k : ℕ}
    (h : (threads ι T).Reachable s) (hk : s.Returned k)
    (hl : Leaving s.swap → k < s.out.length)
    (hnull : s.StopsAt a → ∀ j < k, ¬ s.Stalled j)
    (ha : (threads ι T).next s a = some t) : Leaving t.swap → k < t.out.length := by
  intro hleave
  rcases threads_cases ha with ⟨i, args, -, -, rfl⟩ | ⟨i, pc, q, pc', -, -, -, rfl⟩ |
    ⟨-, -, rfl⟩ | ⟨pc, q, out, pc', rfl, hs, hq, rfl⟩
  · exact hl hleave
  · exact hl hleave
  · exact hleave.elim
  · rcases swap_cases hq with ⟨cur, x, rfl, hx, hn, rfl, rfl, rfl⟩ |
      ⟨cur, x, next, rfl, -, -, rfl, rfl, rfl⟩ | ⟨cur, next, h', rfl, -, rfl, rfl, rfl⟩ |
      ⟨cur, x, h', rfl, -, -, rfl, rfl, rfl⟩ | ⟨cur, rfl, rfl, rfl, rfl⟩
    · have hstop : s.StopsAt .swap := ⟨rfl, cur, hs, by rw [nextOf_of_cell hx]; exact hn⟩
      rw [List.append_nil]
      rcases stalled_of_stopsAt h hstop with hnil | hstall
      · have hlen := congrArg List.length hnil
        rw [undelivered, List.length_drop, List.length_nil] at hlen
        have hlt := hk.1
        show k < s.out.length
        omega
      · -- the first undelivered element is stalled: it is behind `k`
        by_contra hge
        rcases Nat.lt_or_eq_of_le (Nat.le_of_not_lt hge) with hlt | heq
        · exact hnull hstop _ hlt hstall
        · exact hk.2 (heq ▸ hstall)
    · exact hleave.elim
    · exact hleave.elim
    · exact hleave.elim
    · rw [List.append_nil]
      exact hl (by rw [hs]; trivial)

lemma SwapRun.delivered {s t : Threads ι T} {tr : List (Threads ι T × Action ι T)} {k : ℕ}
    (h : (threads ι T).Reachable s) (hr : SwapRun s tr t) (hk : s.Returned k)
    (hnull : ∀ p ∈ tr, p.1.StopsAt p.2 → ∀ j < k, ¬ p.1.Stalled j) : s.Delivered k t := by
  obtain ⟨e, he⟩ : ∃ e, s.exchanged[k]? = some e := ⟨_, List.getElem?_eq_getElem hk.1⟩
  obtain ⟨-, u, hu, hrun⟩ := hr.run.cons_inv
  have hu' : u.swap = some (.load s.queue.head) := by
    rcases threads_cases hu with ⟨i, args, ha, -⟩ | ⟨i, pc, q, pc', ha, -⟩ | ⟨-, -, rfl⟩ |
      ⟨pc, q, out, pc', ha, -⟩
    · cases ha
    · cases ha
    · rfl
    · cases ha
  obtain ⟨hku, heu⟩ := returned_step h hk he hu
  have hinv := hrun.invariant
    (I := fun s => (threads ι T).Reachable s ∧ s.Returned k ∧ s.exchanged[k]? = some e ∧
      (Leaving s.swap → k < s.out.length))
    (C := fun s a => s.StopsAt a → ∀ j < k, ¬ s.Stalled j)
    (by
      rintro s a t ⟨hs, hks, hes, hl⟩ hC ha
      obtain ⟨hkt, het⟩ := returned_step hs hks hes ha
      exact ⟨hs.next ha, hkt, het, leaving_step hs hks hl hC ha⟩)
    hnull ⟨h.next hu, hku, heu, fun hl => by rw [hu'] at hl; exact hl.elim⟩
  obtain ⟨ht, -, het, hl⟩ := hinv
  have hlt : k < t.out.length := hl (by rw [hr.returned]; trivial)
  refine ⟨e, he, ?_⟩
  -- what was delivered is a prefix of what was emplaced
  obtain ⟨rest, hrest⟩ := prefix_emplaced ht
  rw [← List.getElem?_append_left hlt, hrest, emplaced, List.getElem?_map, het]
  rfl

/-! ### A call of `swap` with no `emplace_back` in progress -/

/-- No call of `emplace_back` is in progress. -/
def Quiet (s : Threads ι T) : Prop := ∀ i, s.emplace i = none

omit [DecidableEq ι] [Inhabited T] in
lemma Quiet.not_stalled {s : Threads ι T} (hq : s.Quiet) (j : ℕ) : ¬ s.Stalled j := by
  rintro ⟨e, i, prev, -, hi⟩
  rw [Linking, hq i] at hi
  cases hi

lemma exchanged_of_quiet {s t : Threads ι T} {tr : List (Threads ι T × Action ι T)}
    (hr : (threads ι T).Run s tr t) (hq : ∀ p ∈ tr, p.1.Quiet) :
    t.exchanged = s.exchanged := by
  refine hr.invariant (I := fun u => u.exchanged = s.exchanged) (C := fun u _ => u.Quiet)
    ?_ hq rfl
  intro u a v hI hC ha
  rcases threads_cases ha with ⟨i, args, -, -, rfl⟩ | ⟨i, pc, q, pc', -, hi, -, rfl⟩ |
    ⟨-, -, rfl⟩ | ⟨pc, q, out, pc', -, -, -, rfl⟩
  · exact hI
  · rw [hC i] at hi
    cases hi
  · exact hI
  · exact hI

lemma SwapRun.out_eq {s t : Threads ι T} {tr : List (Threads ι T × Action ι T)}
    (h : (threads ι T).Reachable s) (hr : SwapRun s tr t)
    (hq : ∀ p ∈ (s, Action.callSwap) :: tr, p.1.Quiet) : t.out = t.emplaced := by
  have hsame := exchanged_of_quiet hr.run hq
  refine (prefix_emplaced (h.run hr.run)).eq_of_length_le ?_
  rw [emplaced, List.length_map, hsame]
  -- the last element, if there is one, has been delivered
  by_contra hlt
  have hret : s.Returned (s.exchanged.length - 1) :=
    ⟨by omega, (hq _ (List.mem_cons_self)).not_stalled _⟩
  have hdel := hr.delivered h hret fun p hp _ j _ => (hq p (by simp [hp])).not_stalled j
  obtain ⟨e, -, hout⟩ := hdel
  have hk := (List.getElem?_eq_some_iff.mp hout).1
  omega

end Threads

open Threads

/-- **The queue neither loses, repeats nor reorders.**  What `swap` has delivered is a
prefix of what was emplaced, in the order of the exchanges on `tail_`; that order extends
the order of each thread's own calls; and a call of `swap` that runs from start to end with
no `emplace_back` in progress leaves nothing undelivered. -/
theorem delivery_in_order {T ι : Type} [DecidableEq ι] [Inhabited T] {s : Threads ι T}
    (h : (threads ι T).Reachable s) :
    s.out <+: s.emplaced ∧
    (∀ i, s.calls i = s.emplacedBy i ++ pendingArg (s.emplace i)) ∧
    ∀ tr t, SwapRun s tr t → (∀ p ∈ (s, Action.callSwap) :: tr, p.1.Quiet) →
      t.out = t.emplaced := by
  refine ⟨prefix_emplaced h, calls_eq h, ?_⟩
  intro tr t hr hq
  exact hr.out_eq h hq

/-- Two threads emplace, and a call of `swap` stops while the first of them is stalled; when
it has gone on, a call that runs alone delivers both elements. -/
theorem delivery_in_order_two : ∃ s tr t, (threads Bool ℕ).Reachable s ∧ SwapRun s tr t ∧
    s.emplaced = [1, 2] ∧ s.out <+: s.emplaced ∧ t.out = t.emplaced ∧ t.out ≠ s.out := by
  have h₀ : (threads Bool ℕ).Reachable (start Bool ℕ) := .of_init rfl
  obtain ⟨s, u, t, hs, hu, ht, hrunning, hquiet, hret, hemp, hout⟩ : ∃ s u t,
      (threads Bool ℕ).exec (start Bool ℕ)
        [.callEmplace false 1, .callEmplace true 2, .emplace true, .emplace false,
          .emplace false, .emplace true, .emplace true, .callSwap, .swap, .swap,
          .emplace false] = some s ∧
      (threads Bool ℕ).next s .callSwap = some u ∧
      (threads Bool ℕ).exec u (List.replicate 8 .swap) = some t ∧
      (∀ p ∈ (threads Bool ℕ).trace u (List.replicate 8 .swap), p.1.swap ≠ none) ∧
      (∀ p ∈ (s, .callSwap) :: (threads Bool ℕ).trace u (List.replicate 8 .swap),
        ∀ i, p.1.emplace i = none) ∧
      t.swap = none ∧ s.emplaced = [1, 2] ∧ t.out ≠ s.out :=
    ⟨_, _, _, rfl, rfl, rfl, by decide, by decide, rfl, rfl, by decide⟩
  have hr : SwapRun s ((threads Bool ℕ).trace u (List.replicate 8 .swap)) t :=
    ⟨.cons hu (run_of_exec ht), hrunning, hret⟩
  obtain ⟨hpre, -, hall⟩ := delivery_in_order (h₀.exec hs)
  exact ⟨s, _, t, h₀.exec hs, hr, hemp, hpre, hall _ t hr hquiet, hout⟩

/-- **Real-time order.**  An element whose `emplace_back` has returned before a call of
`swap` begins has been delivered when that call returns, unless the call reads a null `next`
while the thread of an element that was exchanged earlier is before its store. -/
theorem delivered_of_returned {T ι : Type} [DecidableEq ι] [Inhabited T]
    {s t : Threads ι T} {tr : List (Threads ι T × Action ι T)} {k : ℕ}
    (h : (threads ι T).Reachable s) (hk : s.Returned k) (hr : SwapRun s tr t)
    (hnull : ∀ p ∈ tr, p.1.StopsAt p.2 → ∀ j < k, ¬ p.1.Stalled j) : s.Delivered k t :=
  hr.delivered h hk hnull

/-- The last of three elements is stalled, and the two before it are delivered. -/
theorem delivered_of_returned_second : ∃ s tr t, (threads Bool ℕ).Reachable s ∧
    SwapRun s tr t ∧ s.Stalled 2 ∧ s.Delivered 1 t := by
  have h₀ : (threads Bool ℕ).Reachable (start Bool ℕ) := .of_init rfl
  obtain ⟨s, u, t, hs, hu, ht, hrunning, hstates, hret, hk, hstall⟩ : ∃ s u t,
      (threads Bool ℕ).exec (start Bool ℕ)
        [.callEmplace false 1, .emplace false, .emplace false, .emplace false,
          .callEmplace true 2, .emplace true, .emplace true, .emplace true,
          .callEmplace false 3, .emplace false, .emplace false] = some s ∧
      (threads Bool ℕ).next s .callSwap = some u ∧
      (threads Bool ℕ).exec u (List.replicate 8 .swap) = some t ∧
      (∀ p ∈ (threads Bool ℕ).trace u (List.replicate 8 .swap), p.1.swap ≠ none) ∧
      (∀ p ∈ (threads Bool ℕ).trace u (List.replicate 8 .swap),
        p.1.exchanged[0]? = some ⟨false, 1, 1⟩ ∧ p.1.emplace true = none ∧
        p.1.emplace false = some (.link 2 3)) ∧
      t.swap = none ∧ s.Returned 1 ∧ s.Stalled 2 := by
    refine ⟨_, _, _, rfl, rfl, rfl, by decide, by decide, rfl, ⟨by decide, ?_⟩, ?_⟩
    · rintro ⟨e, i, prev, he, hi⟩
      cases he
      cases i
      · cases hi
      · cases hi
    · exact ⟨_, false, 2, rfl, rfl⟩
  have hr : SwapRun s ((threads Bool ℕ).trace u (List.replicate 8 .swap)) t :=
    ⟨.cons hu (run_of_exec ht), hrunning, hret⟩
  refine ⟨s, _, t, h₀.exec hs, hr, hstall, delivered_of_returned (h₀.exec hs) hk hr ?_⟩
  rintro p hp - j hj ⟨e, i, prev, he, hi⟩
  obtain ⟨hex, htrue, hfalse⟩ := hstates p hp
  obtain rfl : j = 0 := by omega
  rw [hex] at he
  cases he
  cases i
  · rw [Linking, hfalse] at hi
    cases hi
  · rw [Linking, htrue] at hi
    cases hi

/-- Without the condition it fails: the first thread is stalled between its exchange and its
store, the second thread's `emplace_back` has returned, and `swap` returns empty-handed. -/
theorem not_realTime : ¬ ∀ (s t : Threads Bool ℕ) (tr : List (Threads Bool ℕ × Action Bool ℕ))
    (k : ℕ), (threads Bool ℕ).Reachable s → s.Returned k → SwapRun s tr t →
      s.Delivered k t := by
  intro hrealTime
  have h₀ : (threads Bool ℕ).Reachable (start Bool ℕ) := .of_init rfl
  obtain ⟨s, u, t, hs, hu, ht, hrunning, hret, hk, hout⟩ : ∃ s u t,
      (threads Bool ℕ).exec (start Bool ℕ)
        [.callEmplace false 1, .emplace false, .emplace false,
          .callEmplace true 2, .emplace true, .emplace true, .emplace true] = some s ∧
      (threads Bool ℕ).next s .callSwap = some u ∧
      (threads Bool ℕ).exec u [.swap, .swap] = some t ∧
      (∀ p ∈ (threads Bool ℕ).trace u [.swap, .swap], p.1.swap ≠ none) ∧
      t.swap = none ∧ s.Returned 1 ∧ t.out = [] := by
    refine ⟨_, _, _, rfl, rfl, rfl, by decide, rfl, ⟨by decide, ?_⟩, rfl⟩
    rintro ⟨e, i, prev, he, hi⟩
    cases he
    cases i
    · cases hi
    · cases hi
  have hr : SwapRun s ((threads Bool ℕ).trace u [.swap, .swap]) t :=
    ⟨.cons hu (run_of_exec ht), hrunning, hret⟩
  obtain ⟨e, -, he⟩ := hrealTime s t _ 1 (h₀.exec hs) hk hr
  rw [hout] at he
  cases he

end LockeFreeQueue

end EventManager
