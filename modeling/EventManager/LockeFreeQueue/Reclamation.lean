import EventManager.LockeFreeQueue.Invariant

/-!
# The life of the nodes

`swap` deletes nodes while other threads hold pointers into the list, with no counts and no
hazard pointers.  It may: it deletes a node only after the `next` of that node has been
stored, and only one thread ever stores there.  So no step goes through a dangling pointer
(`reclamation`), every call can go on, and the destructor deletes what is left
(`destructor_deletes_all`).
-/

namespace EventManager

open Steps Machine

/-- The node that a step of `emplace_back` reads or writes, other than the one it makes. -/
def EmplacePc.accesses {T : Type} : EmplacePc T → Option ℕ
  | .link prev _ => some prev
  | _ => none

/-- The node that a step of `swap` reads, writes or deletes. -/
def SwapPc.accesses : SwapPc → Option ℕ
  | .load cur => some cur
  | .delete cur _ => some cur
  | .move cur => some cur
  | .finish _ => none

namespace LockeFreeQueue

variable {T ι : Type}

/-! ### The destructor -/

/-- The destructor deletes the nodes of a list that is linked through. -/
lemma destroy_chain {ch : List ℕ} {h : Heap (Node T)} {fuel : ℕ} (hnodup : ch.Nodup)
    (hlive : ∀ a ∈ ch, h.Live a) (hch : ch.IsChain fun a b => nextOf h a = some b)
    (hlast : ∀ a, ch.getLast? = some a → nextOf h a = none) (hf : ch.length ≤ fuel) :
    ∃ h', destroy fuel h ch.head? = some h' ∧ h'.fresh = h.fresh ∧
      ∀ a, h'.Live a ↔ h.Live a ∧ a ∉ ch := by
  induction ch generalizing h fuel with
  | nil =>
    refine ⟨h, ?_, rfl, by simp⟩
    cases fuel <;> rfl
  | cons c rest ih =>
    obtain ⟨fuel, rfl⟩ : ∃ n, fuel = n + 1 := ⟨fuel - 1, by rw [List.length_cons] at hf; omega⟩
    obtain ⟨hc, hrest⟩ := List.nodup_cons.mp hnodup
    have hlc : h.Live c := hlive c List.mem_cons_self
    obtain ⟨x, hx⟩ := Heap.live_iff.mp hlc
    have hd : h.delete c = some (h.remove c hlc) := Heap.delete_of_live hlc
    obtain ⟨-, hcell, hfresh, -⟩ := Heap.delete_eq_some hd
    set h₁ := h.remove c hlc with hh₁
    have hother : ∀ a ∈ rest, h₁.cell a = h.cell a := by
      intro a ha
      refine Heap.delete_cell_of_ne hd ?_
      rintro rfl
      exact hc ha
    -- the `next` of the first node is the first of the others, or null
    have hnext : x.next = rest.head? := by
      rw [← nextOf_of_cell hx]
      cases rest with
      | nil => exact hlast c rfl
      | cons b rest => exact (List.isChain_cons_cons.mp hch).1
    have hlast' : ∀ a, rest.getLast? = some a → nextOf h₁ a = none := by
      intro a ha
      rw [nextOf_eq (hother a (List.mem_of_getLast? ha))]
      cases rest with
      | nil => cases ha
      | cons b rest => exact hlast a (by rw [List.getLast?_cons_cons]; exact ha)
    have hch' : rest.IsChain fun a b => nextOf h₁ a = some b := by
      refine hch.tail.imp_of_mem_imp ?_
      rintro a b ha - hab
      rw [nextOf_eq (hother a ha)]
      exact hab
    have hlive' : ∀ a ∈ rest, h₁.Live a := by
      intro a ha
      rw [Heap.Live, hother a ha]
      exact hlive a (List.mem_cons_of_mem c ha)
    have hlen : rest.length ≤ fuel := by
      rw [List.length_cons] at hf
      omega
    obtain ⟨h', hdest, hf', hl'⟩ := ih hrest hlive' hch' hlast' hlen
    refine ⟨h', ?_, hf'.trans hfresh, ?_⟩
    · rw [List.head?_cons, destroy, hx, Option.bind_some, hd, Option.bind_some, hnext]
      exact hdest
    · intro a
      rw [hl', List.mem_cons, not_or]
      by_cases hac : a = c
      · subst hac
        simp [Heap.Live, hcell]
      · have hsame : h₁.Live a ↔ h.Live a := by
          rw [Heap.Live, Heap.Live, hcell, Function.update_of_ne hac]
        rw [hsame]
        simp [hac]

namespace Threads

/-! ### No dangling pointer -/

lemma Inv.live_of_linking {s : Threads ι T} (hI : s.Inv) {i : ι} {a b : ℕ}
    (hi : Linking s.emplace i a b) : s.queue.heap.Live a :=
  hI.segmented.live a (hI.segmented.linking i a b hi).1

lemma Inv.live_of_swap {s : Threads ι T} (hI : s.Inv) {pc : SwapPc} {a : ℕ}
    (hs : s.swap = some pc) (ha : pc.accesses = some a) : s.queue.heap.Live a := by
  refine hI.segmented.live a ?_
  rw [chain, hs]
  cases pc with
  | load cur =>
    cases ha
    exact List.mem_cons_self
  | delete cur next =>
    cases ha
    exact List.mem_cons_self
  | move cur =>
    cases ha
    obtain ⟨e, rest, hu, rfl⟩ := hI.moving a hs
    rw [chainFrom, hu]
    exact List.mem_cons_self
  | finish cur => cases ha

lemma Inv.emplaceBack_enabled {s : Threads ι T} (hI : s.Inv) {i : ι} {pc : EmplacePc T}
    (hi : s.emplace i = some pc) : ∃ q pc', s.queue.emplaceBack pc = some (q, pc') := by
  cases pc with
  | alloc args => exact ⟨_, _, rfl⟩
  | exchange args n => exact ⟨_, _, rfl⟩
  | link prev n =>
    obtain ⟨h', hm⟩ := Heap.exists_modify (fun x : Node T => { x with next := some n })
      (hI.live_of_linking hi)
    exact ⟨{ s.queue with heap := h' }, none, by rw [emplaceBack, hm]; rfl⟩

lemma Inv.swap_enabled [Inhabited T] {s : Threads ι T} (hI : s.Inv) {pc : SwapPc}
    (hs : s.swap = some pc) : ∃ q out pc', s.queue.swap pc = some (q, out, pc') := by
  have hlive : ∀ a, pc.accesses = some a → s.queue.heap.Live a := fun a ha =>
    hI.live_of_swap hs ha
  cases pc with
  | load cur =>
    obtain ⟨x, hx⟩ := Heap.live_iff.mp (hlive cur rfl)
    simp [LockeFreeQueue.swap, hx]
  | delete cur n =>
    have hd := Heap.delete_of_live (hlive cur rfl)
    simp [LockeFreeQueue.swap, hd]
  | move cur =>
    obtain ⟨x, hx⟩ := Heap.live_iff.mp (hlive cur rfl)
    obtain ⟨h', hm⟩ := Heap.exists_modify
      (fun x : Node T => { x with data := default }) (hlive cur rfl)
    simp [LockeFreeQueue.swap, hx, hm]
  | finish cur => exact ⟨_, _, _, rfl⟩

/-! ### A call of `swap` that runs alone returns -/

variable [DecidableEq ι] [Inhabited T]

/-- The number of steps that `swap` still takes, when nobody else moves. -/
def stepsLeft (s : Threads ι T) : ℕ :=
  match s.swap with
  | none => 0
  | some (.load _) => 3 * s.undelivered.length + 2
  | some (.delete _ _) => 3 * s.undelivered.length + 1
  | some (.move _) => 3 * s.undelivered.length
  | some (.finish _) => 1

lemma stepsLeft_lt {s t : Threads ι T} (h : (threads ι T).Reachable s)
    (ha : (threads ι T).next s .swap = some t) : t.stepsLeft < s.stepsLeft := by
  rcases threads_cases ha with ⟨i, args, hact, -⟩ | ⟨i, pc, q, pc', hact, -⟩ | ⟨hact, -⟩ |
    ⟨pc, q, out, pc', -, hs, hq, rfl⟩
  · cases hact
  · cases hact
  · cases hact
  · rcases swap_cases hq with ⟨cur, x, rfl, -, -, rfl, rfl, rfl⟩ |
      ⟨cur, x, next, rfl, -, -, rfl, rfl, rfl⟩ | ⟨cur, next, h', rfl, -, rfl, rfl, rfl⟩ |
      ⟨cur, x, h', rfl, -, -, rfl, rfl, rfl⟩ | ⟨cur, rfl, rfl, rfl, rfl⟩
    · simp [stepsLeft, hs]
    · simp [stepsLeft, hs, undelivered]
    · simp [stepsLeft, hs, undelivered]
    · obtain ⟨e, rest, hu, -⟩ := (inv_of_reachable h).moving cur hs
      have hund := undelivered_tail
        (t := { s with
          queue := { s.queue with heap := h' }, swap := some (.load cur)
          out := s.out ++ [x.data] }) hu rfl rfl
      simp only [stepsLeft, hs, hund, hu, List.length_cons]
      omega
    · simp [stepsLeft, hs]

/-- A call of `swap` that runs alone returns. -/
theorem swap_returns {s : Threads ι T} (h : (threads ι T).Reachable s) :
    ∃ n t, (threads ι T).exec s (List.replicate n .swap) = some t ∧ t.swap = none := by
  induction hn : s.stepsLeft using Nat.strong_induction_on generalizing s with
  | _ m ih =>
    cases hs : s.swap with
    | none => exact ⟨0, s, rfl, hs⟩
    | some pc =>
      obtain ⟨q, out, pc', hq⟩ := (inv_of_reachable h).swap_enabled hs
      have hu := next_swap hs hq
      have hlt := stepsLeft_lt h hu
      rw [hn] at hlt
      obtain ⟨n, t, hx, ht⟩ := ih _ hlt (h.next hu) rfl
      refine ⟨n + 1, t, ?_, ht⟩
      rw [List.replicate_succ, exec, hu, Option.bind_some]
      exact hx

lemma destructor_deletes_all {s : Threads ι T} (h : (threads ι T).Reachable s)
    (hq : ∀ i, s.emplace i = none) (hs : s.swap = none) {fuel : ℕ}
    (hf : s.exchanged.length < fuel) :
    ∃ h', s.queue.destructor fuel = some h' ∧ h'.fresh = s.queue.heap.fresh ∧
      ∀ a, ¬ h'.Live a := by
  have hseg := (inv_of_reachable h).segmented
  have hch : s.chain = s.queue.head :: s.undelivered.map Exchange.node := by
    rw [chain, hs]
    rfl
  have hlen : s.chain.length ≤ fuel := by
    rw [hch, List.length_cons, List.length_map, undelivered, List.length_drop]
    omega
  have hlast : ∀ a, s.chain.getLast? = some a → nextOf s.queue.heap a = none := by
    intro a ha
    rw [hseg.last] at ha
    cases ha
    exact hseg.tail_next
  have hlink : ∀ i a b, ¬ Linking s.emplace i a b := by
    intro i a b hi
    rw [Linking, hq i] at hi
    cases hi
  obtain ⟨h', hd, hfresh, hl⟩ :=
    destroy_chain hseg.nodup hseg.live (hseg.follows_of_quiet hlink) hlast hlen
  refine ⟨h', ?_, hfresh, ?_⟩
  · rw [hch] at hd
    exact hd
  · intro a ha
    obtain ⟨hlive, hnot⟩ := (hl a).mp ha
    rcases hseg.cover a hlive with hmem | ⟨i, v, hi⟩
    · exact hnot hmem
    · rw [Owns, hq i] at hi
      cases hi

end Threads

open Threads

/-- **Reclamation.**  Every step that goes through a pointer finds the node in the store, so
that a `delete` never meets a deleted node; `tail_` always names a node in the store, and
`head_` does when `swap` is not running; no node is deleted twice; and when the destructor
runs with no call in progress, every node that was ever allocated, the first dummy included,
has then been deleted exactly once. -/
theorem reclamation {T ι : Type} [DecidableEq ι] [Inhabited T] {s : Threads ι T}
    (h : (threads ι T).Reachable s) :
    (∀ i pc a, s.emplace i = some pc → pc.accesses = some a → s.queue.heap.Live a) ∧
    (∀ pc a, s.swap = some pc → pc.accesses = some a → s.queue.heap.Live a) ∧
    s.queue.heap.Live s.queue.tail ∧
    (s.swap = none → s.queue.heap.Live s.queue.head) ∧
    s.queue.heap.freed.Nodup ∧
    ((∀ i, s.emplace i = none) → s.swap = none → ∀ fuel, s.exchanged.length < fuel →
      ∃ h', s.queue.destructor fuel = some h' ∧ h'.fresh = s.queue.heap.fresh ∧
        ∀ a, h'.freed.count a = if a < h'.fresh then 1 else 0) := by
  have hI := inv_of_reachable h
  refine ⟨?_, ?_, hI.segmented.live _ hI.segmented.tail_mem, ?_, s.queue.heap.nodup_freed, ?_⟩
  · intro i pc a hi ha
    cases pc with
    | alloc args => cases ha
    | exchange args n => cases ha
    | link prev n =>
      cases ha
      exact hI.live_of_linking hi
  · intro pc a hs ha
    exact hI.live_of_swap hs ha
  · intro hs
    refine hI.segmented.live _ ?_
    rw [chain, hs]
    exact List.mem_cons_self
  · intro hq hs fuel hf
    obtain ⟨h', hd, hfresh, hdead⟩ := destructor_deletes_all h hq hs hf
    refine ⟨h', hd, hfresh, ?_⟩
    intro a
    rw [h'.nodup_freed.count]
    simp only [Heap.mem_freed_of_no_live hdead]

/-- Two elements are emplaced, one is delivered and its dummy deleted; the destructor deletes
the other nodes. -/
theorem reclamation_two : ∃ s h', (threads Bool ℕ).Reachable s ∧ s.queue.heap.freed = [0] ∧
    s.queue.destructor 3 = some h' ∧ h'.fresh = 3 ∧ h'.freed.count 0 = 1 := by
  have h₀ : (threads Bool ℕ).Reachable (start Bool ℕ) := .of_init rfl
  obtain ⟨s, hs, hquiet, hswap, hlen, hfresh, hfreed⟩ : ∃ s,
      (threads Bool ℕ).exec (start Bool ℕ)
        [.callEmplace false 1, .emplace false, .emplace false, .callEmplace true 2,
          .emplace false, .callSwap, .swap, .swap, .swap, .swap, .swap, .emplace true,
          .emplace true, .emplace true] = some s ∧
      (∀ i, s.emplace i = none) ∧ s.swap = none ∧ s.exchanged.length < 3 ∧
      s.queue.heap.fresh = 3 ∧ s.queue.heap.freed = [0] :=
    ⟨_, rfl, by decide, rfl, by decide, rfl, rfl⟩
  obtain ⟨h', hd, hf, hcount⟩ :=
    (reclamation (h₀.exec hs)).2.2.2.2.2 hquiet hswap 3 hlen
  refine ⟨s, h', h₀.exec hs, hfreed, hd, hf.trans hfresh, ?_⟩
  rw [hcount, hf, hfresh]
  rfl

end LockeFreeQueue

end EventManager
