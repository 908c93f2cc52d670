import EventManager.LockeFreeQueue.Delivery

/-!
# An exception inside of swap

`out.emplace_back` may throw: a node of the list cannot be allocated, or the move of an
element throws.  `swap` is then left before `head_ = cur`, and after the `delete` of the node
that `head_` names.  What has been appended is right, but `head_` is a dangling pointer, and
whoever goes through it next, a call of `swap` or the destructor, goes wrong
(`not_exceptionSafe`).
-/

namespace EventManager

open Steps Machine

/-- Where `head_` is while `swap` is at a step: it names the node that `swap` is at, or it
dangles; it dangles when `swap` is about to move an element. -/
def SwapPc.HeadBehind (head : ℕ) (dangles : Prop) : SwapPc → Prop
  | .load cur => cur = head ∨ dangles
  | .delete cur _ => cur = head ∨ dangles
  | .move _ => dangles
  | .finish _ => True

lemma SwapPc.HeadBehind.mono {head : ℕ} {p q : Prop} {pc : SwapPc} (h : pc.HeadBehind head p)
    (hpq : p → q) : pc.HeadBehind head q := by
  cases pc with
  | load cur => exact Or.imp_right hpq h
  | delete cur next => exact Or.imp_right hpq h
  | move cur => exact hpq h
  | finish cur => exact h

namespace LockeFreeQueue.Threads

variable {T ι : Type}

/-- `out.emplace_back` throws in the iteration that `swap` is in, and leaves `data` in the
node that it was to move from.  Nothing else has changed when `swap` is left. -/
def throwMove (s : Threads ι T) (data : T) : Option (Threads ι T) :=
  match s.swap with
  | some (.move cur) =>
    (s.queue.heap.modify cur fun x => { x with data := data }).map fun h =>
      { s with queue := { s.queue with heap := h }, swap := none }
  | _ => none

/-! ### Where `head_` is -/

/-- The node that `head_` names has been allocated; it dangles when `swap` is about to move an
element. -/
structure HeadInv (s : Threads ι T) : Prop where
  allocated : s.queue.head < s.queue.heap.fresh
  behind : ∀ pc, s.swap = some pc →
    pc.HeadBehind s.queue.head (¬ s.queue.heap.Live s.queue.head)

/-- A step of `emplace_back` allocates, but brings no node back to life. -/
lemma emplaceBack_live {q q' : LockeFreeQueue T} {pc : EmplacePc T} {pc' : Option (EmplacePc T)}
    (h : q.emplaceBack pc = some (q', pc')) :
    q'.head = q.head ∧ q.heap.fresh ≤ q'.heap.fresh ∧
      ∀ a, a < q.heap.fresh → q'.heap.Live a → q.heap.Live a := by
  rcases emplaceBack_cases h with ⟨args, rfl, rfl, -⟩ | ⟨args, newNode, rfl, rfl, -⟩ |
    ⟨prev, newNode, h', rfl, hm, rfl, -⟩
  · refine ⟨rfl, by simp, fun a ha hl => ?_⟩
    rcases Heap.live_alloc.mp hl with rfl | hl
    · omega
    · exact hl
  · exact ⟨rfl, le_rfl, fun a _ hl => hl⟩
  · obtain ⟨x, -, -, hfresh, -⟩ := Heap.modify_eq_some hm
    exact ⟨rfl, hfresh.ge, fun a _ hl => (Heap.live_modify hm).mp hl⟩

variable [Inhabited T]

lemma headInv_start : (start ι T).HeadInv := by
  refine ⟨?_, fun pc h => by cases h⟩
  show 0 < 1
  omega

lemma headInv_swap {s : Threads ι T} {pc : SwapPc} {q : LockeFreeQueue T} {out : List T}
    {pc' : Option SwapPc} (hI : s.Inv) (h : s.HeadInv) (hs : s.swap = some pc)
    (hq : s.queue.swap pc = some (q, out, pc')) :
    HeadInv { s with queue := q, swap := pc', out := s.out ++ out } := by
  have hallocated := h.allocated
  have hbehind := h.behind pc hs
  rcases swap_cases hq with ⟨cur, x, rfl, -, -, rfl, rfl, rfl⟩ |
    ⟨cur, x, next, rfl, -, -, rfl, rfl, rfl⟩ | ⟨cur, next, h', rfl, hd, rfl, rfl, rfl⟩ |
    ⟨cur, x, h', rfl, -, hm, rfl, rfl, rfl⟩ | ⟨cur, rfl, rfl, rfl, rfl⟩
  · exact ⟨hallocated, fun pc hpc => by cases hpc; trivial⟩
  · exact ⟨hallocated, fun pc hpc => by cases hpc; exact hbehind⟩
  · -- the first round deletes the node that `head_` names
    obtain ⟨-, hcell, hfresh, -⟩ := Heap.delete_eq_some hd
    refine ⟨hfresh ▸ hallocated, fun pc hpc => ?_⟩
    cases hpc
    show ¬ h'.Live s.queue.head
    by_cases hcur : cur = s.queue.head
    · simp [Heap.Live, hcell, hcur]
    · rw [Heap.Live, Heap.delete_cell_of_ne hd (Ne.symm hcur)]
      exact hbehind.resolve_left hcur
  · obtain ⟨y, -, -, hfresh, -⟩ := Heap.modify_eq_some hm
    refine ⟨hfresh ▸ hallocated, fun pc hpc => ?_⟩
    cases hpc
    exact Or.inr fun hl => hbehind ((Heap.live_modify hm).mp hl)
  · refine ⟨s.queue.heap.lt_fresh (hI.segmented.live cur ?_), fun pc hpc => by cases hpc⟩
    rw [chain, hs]
    exact List.mem_cons_self

variable [DecidableEq ι]

lemma headInv_step {s t : Threads ι T} {a : Action ι T} (hI : s.Inv) (h : s.HeadInv)
    (ha : (threads ι T).next s a = some t) : t.HeadInv := by
  rcases threads_cases ha with ⟨i, args, -, -, rfl⟩ | ⟨i, pc, q, pc', -, -, hq, rfl⟩ |
    ⟨-, -, rfl⟩ | ⟨pc, q, out, pc', -, hs, hq, rfl⟩
  · exact ⟨h.allocated, h.behind⟩
  · obtain ⟨hhead, hfresh, hlive⟩ := emplaceBack_live hq
    have hallocated := h.allocated
    refine ⟨by simp only [hhead]; omega, fun pc hpc => ?_⟩
    simp only [hhead]
    exact (h.behind pc hpc).mono fun hdead hl => hdead (hlive _ hallocated hl)
  · exact ⟨h.allocated, fun pc hpc => by cases hpc; exact Or.inl rfl⟩
  · exact headInv_swap hI h hs hq

lemma headInv_of_reachable {s : Threads ι T} (h : (threads ι T).Reachable s) : s.HeadInv := by
  refine h.invariant_of_reachable (I := HeadInv) ?_ ?_
  · rintro s rfl
    exact headInv_start
  · intro s a t hs hI ha
    exact headInv_step (inv_of_reachable hs) hI ha

/-! ### What is left -/

/-- What one may expect of a queue after an exception: `head_` names a node in the store, the
elements in `out` are the first ones; and when no `emplace_back` is in progress, a later call
of `swap` appends the others, but for the one whose move was tried, and the destructor
deletes every node that is left, each once. -/
structure ExceptionSafe (s : Threads ι T) : Prop where
  head : s.queue.heap.Live s.queue.head
  appended : s.out <+: s.emplaced
  later : s.Quiet → ∃ n t, (threads ι T).exec s (.callSwap :: List.replicate n .swap) = some t ∧
    t.swap = none ∧ (t.out = s.emplaced ∨ t.out = s.out ++ s.emplaced.drop (s.out.length + 1))
  destructor : s.Quiet → ∃ fuel h', s.queue.destructor fuel = some h' ∧
    ∀ a, h'.freed.count a = if a < h'.fresh then 1 else 0

omit [DecidableEq ι] [Inhabited T] in
lemma throwMove_cases {s t : Threads ι T} {data : T} (h : s.throwMove data = some t) :
    ∃ cur h', s.swap = some (.move cur) ∧
      (s.queue.heap.modify cur fun x => { x with data := data }) = some h' ∧
      t = { s with queue := { s.queue with heap := h' }, swap := none } := by
  simp only [throwMove] at h
  split at h
  · obtain ⟨h', hm, rfl⟩ := Option.map_eq_some_iff.mp h
    exact ⟨_, h', ‹_›, hm, rfl⟩
  · cases h

lemma not_live_of_throwMove {s t : Threads ι T} {data : T} (h : (threads ι T).Reachable s)
    (ht : s.throwMove data = some t) : ¬ t.queue.heap.Live t.queue.head := by
  obtain ⟨cur, h', hs, hm, rfl⟩ := throwMove_cases ht
  have hdead := (headInv_of_reachable h).behind _ hs
  exact fun hl => hdead ((Heap.live_modify hm).mp hl)

/-- A call of `swap` on a queue whose `head_` dangles goes through it in its first step. -/
lemma swap_stuck {s : Threads ι T} (hs : s.swap = none)
    (hhead : ¬ s.queue.heap.Live s.queue.head) :
    (threads ι T).exec s [.callSwap, .swap] = none := by
  have hcell : s.queue.heap.cell s.queue.head = none := not_not.mp hhead
  rw [exec, next_callSwap hs, Option.bind_some]
  simp [exec, threads, Threads.next, callSwap, LockeFreeQueue.swap, hcell]

omit [DecidableEq ι] [Inhabited T] in
lemma destructor_stuck {s : Threads ι T} (hhead : ¬ s.queue.heap.Live s.queue.head)
    (fuel : ℕ) : s.queue.destructor fuel = none := by
  have hcell : s.queue.heap.cell s.queue.head = none := not_not.mp hhead
  cases fuel with
  | zero => rfl
  | succ fuel => simp [destructor, destroy, hcell]

/-- **No exception safety.**  Whatever the queue holds, and in whatever iteration
`out.emplace_back` throws: the elements appended so far are the first ones of the queue, but
`head_` names a deleted node, through which the next call of `swap` and the destructor go. -/
theorem not_exceptionSafe {s t : Threads ι T} {data : T} (h : (threads ι T).Reachable s)
    (ht : s.throwMove data = some t) :
    t.out <+: t.emplaced ∧ ¬ t.queue.heap.Live t.queue.head ∧
    (threads ι T).exec t [.callSwap, .swap] = none ∧
    (∀ fuel, t.queue.destructor fuel = none) ∧ ¬ t.ExceptionSafe := by
  have hdead := not_live_of_throwMove h ht
  have htaken := prefix_emplaced h
  obtain ⟨cur, h', hs, hm, rfl⟩ := throwMove_cases ht
  exact ⟨htaken, hdead, swap_stuck rfl hdead, destructor_stuck hdead, fun hsafe =>
    hdead hsafe.head⟩

/-- Two elements, and the move of the second one throws. -/
theorem not_exceptionSafe_second : ∃ s t : Threads Bool ℕ,
    (threads Bool ℕ).Reachable s ∧ s.throwMove 2 = some t ∧ t.out = [1] ∧
    ¬ t.ExceptionSafe := by
  have h₀ : (threads Bool ℕ).Reachable (start Bool ℕ) := .of_init rfl
  obtain ⟨s, hs, t, ht, hout⟩ : ∃ s,
      (threads Bool ℕ).exec (start Bool ℕ)
        [.callEmplace false 1, .emplace false, .emplace false, .emplace false,
          .callEmplace true 2, .emplace true, .emplace true, .emplace true, .callSwap, .swap,
          .swap, .swap, .swap, .swap] = some s ∧
      ∃ t, s.throwMove 2 = some t ∧ t.out = [1] := ⟨_, rfl, _, rfl, rfl⟩
  exact ⟨s, t, h₀.exec hs, ht, hout, (not_exceptionSafe (h₀.exec hs) ht).2.2.2.2⟩

/-- One element whose move throws: `head_` still names the first dummy, which is deleted. -/
theorem head_dangles : ∃ s t : Threads Bool ℕ,
    (threads Bool ℕ).Reachable s ∧ s.throwMove 1 = some t ∧ ¬ t.ExceptionSafe := by
  have h₀ : (threads Bool ℕ).Reachable (start Bool ℕ) := .of_init rfl
  obtain ⟨s, hs, t, ht, hdead⟩ : ∃ s,
      (threads Bool ℕ).exec (start Bool ℕ)
        [.callEmplace false 1, .emplace false, .emplace false, .emplace false, .callSwap,
          .swap, .swap] = some s ∧
      ∃ t, s.throwMove 1 = some t ∧ t.queue.heap.cell t.queue.head = none :=
    ⟨_, rfl, _, rfl, rfl⟩
  exact ⟨s, t, h₀.exec hs, ht, fun hsafe => hsafe.head hdead⟩

end LockeFreeQueue.Threads

end EventManager
