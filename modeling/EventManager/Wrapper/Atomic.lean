import EventManager.Lib.Replay
import EventManager.Wrapper.Lists

/-!
# Operations on wrapped lists are atomic

An operation on a wrapped list takes three steps, between which other threads, and the thread
itself, work on other wrappers.  The lists, and the results of the operations, are nevertheless
those of the operations carried out one after another, each in one step, in the order in which
they have locked: this is what it means to replay the log (`wrappedLists_atomic`).

An operation is carried out later than it has locked.  Until then the mutex keeps everybody
else from its list, and the thread leaves its own lists alone if the operation gets them, so
that what comes after it in the log is about other lists.
-/

namespace EventManager

open Steps

variable {κ ι ν T R : Type}

/-! ### What the entries of the log mean -/

/-- The wrapped lists, and those of the threads. -/
def Lists.contents (s : Lists κ ι ν T R) : κ ⊕ ι × ν → List T
  | .inl w => (s.wrappers w).data
  | .inr (i, x) => (s.threads i).own x

/-- The lists that an operation of the thread `i` is about. -/
def Operation.cells (op : Operation κ ν T R) (i : ι) : Set (κ ⊕ ι × ν) :=
  {c | c = .inl op.target ∨ op.UsesOwn ∧ ∃ x, c = .inr (i, x)}

/-- The lists that an entry is about. -/
def ListsEntry.cells : ListsEntry κ ι ν T R → Set (κ ⊕ ι × ν)
  | operation i op _ => op.cells i
  | change i _ => {c | ∃ x, c = .inr (i, x)}

/-- An operation that gets no lists of the thread neither reads nor changes them. -/
lemma Operation.run_of_not_usesOwn [DecidableEq ν] {op : Operation κ ν T R}
    (h : ¬ op.UsesOwn) (own own' : ν → List T) (list : List T) :
    (op.run own list).2.1 = own ∧ (op.run own list).1 = (op.run own' list).1 ∧
    (op.run own list).2.2 = (op.run own' list).2.2 := by
  cases op with
  | call w method => exact ⟨rfl, rfl, rfl⟩
  | _ => exact absurd trivial h

section Means

variable [DecidableEq κ] [DecidableEq ι] [DecidableEq ν]

/-- The operation of the thread `i` in one step. -/
def Operation.atomic (op : Operation κ ν T R) (i : ι) (u : κ ⊕ ι × ν → List T) :
    (κ ⊕ ι × ν → List T) × Option R :=
  let r := op.run (fun x => u (.inr (i, x))) (u (.inl op.target))
  (fun
    | .inl w => if w = op.target then r.1 else u (.inl w)
    | .inr (j, x) => if j = i then r.2.1 x else u (.inr (j, x)), r.2.2)

/-- The lists before and after an entry.  An operation that has not been carried out, or that
has thrown, has changed nothing. -/
def ListsEntry.Means :
    ListsEntry κ ι ν T R → (κ ⊕ ι × ν → List T) → (κ ⊕ ι × ν → List T) → Prop
  | operation i op (.returned r), u, v => v = (op.atomic i u).1 ∧ (op.atomic i u).2 = r
  | operation _ _ _, u, v => v = u
  | change i own, u, v => v = fun
    | .inl w => u (.inl w)
    | .inr (j, x) => if j = i then own x else u (.inr (j, x))

namespace Operation

variable (op : Operation κ ν T R) (i : ι)

lemma atomic_target (u : κ ⊕ ι × ν → List T) :
    (op.atomic i u).1 (.inl op.target) =
      (op.run (fun x => u (.inr (i, x))) (u (.inl op.target))).1 :=
  if_pos rfl

lemma atomic_own (u : κ ⊕ ι × ν → List T) (x : ν) :
    (op.atomic i u).1 (.inr (i, x)) =
      (op.run (fun x => u (.inr (i, x))) (u (.inl op.target))).2.1 x :=
  if_pos rfl

lemma atomic_wrapper (u : κ ⊕ ι × ν → List T) {w : κ} (hw : w ≠ op.target) :
    (op.atomic i u).1 (.inl w) = u (.inl w) :=
  if_neg hw

lemma atomic_thread (u : κ ⊕ ι × ν → List T) {j : ι} (hj : j ≠ i) (x : ν) :
    (op.atomic i u).1 (.inr (j, x)) = u (.inr (j, x)) :=
  if_neg hj

lemma atomic_frame (u : κ ⊕ ι × ν → List T) {c : κ ⊕ ι × ν} (hc : c ∉ op.cells i) :
    (op.atomic i u).1 c = u c := by
  match c with
  | .inl w => exact op.atomic_wrapper i u fun heq => hc (Or.inl (by rw [heq]))
  | .inr (j, x) =>
    by_cases hj : j = i
    · subst hj
      have hown : ¬ op.UsesOwn := fun hown => hc (Or.inr ⟨hown, x, rfl⟩)
      rw [atomic_own, (run_of_not_usesOwn hown _ (fun _ => []) _).1]
    · exact op.atomic_thread i u hj x

/-- What an operation does to its lists, and its result, depend on these lists. -/
lemma atomic_congr {u u' : κ ⊕ ι × ν → List T} (hu : ∀ c ∈ op.cells i, u' c = u c) :
    (∀ c ∈ op.cells i, (op.atomic i u').1 c = (op.atomic i u).1 c) ∧
    (op.atomic i u').2 = (op.atomic i u).2 := by
  have htarget : u' (.inl op.target) = u (.inl op.target) := hu _ (Or.inl rfl)
  by_cases hown : op.UsesOwn
  · have hlists : (fun x => u' (.inr (i, x))) = fun x => u (.inr (i, x)) := by
      ext1 x
      exact hu _ (Or.inr ⟨hown, x, rfl⟩)
    constructor
    · rintro c (rfl | ⟨-, x, rfl⟩)
      · rw [atomic_target, atomic_target, htarget, hlists]
      · rw [atomic_own, atomic_own, htarget, hlists]
    · rw [atomic, atomic, htarget, hlists]
  · obtain ⟨-, hlist, hresult⟩ := run_of_not_usesOwn hown (fun x => u' (.inr (i, x)))
      (fun x => u (.inr (i, x))) (u (.inl op.target))
    constructor
    · rintro c (rfl | ⟨hown', -⟩)
      · rw [atomic_target, atomic_target, htarget, hlist]
      · exact absurd hown' hown
    · rw [atomic, atomic, htarget]
      exact hresult

end Operation

lemma ListsEntry.local_means (e : ListsEntry κ ι ν T R) : Local e.cells e.Means := by
  match e with
  | .operation i op (.returned r) =>
    refine (local_of_fun (fun u c hc => op.atomic_frame i u hc)
      fun u u' hu => (op.atomic_congr i hu).1).and fun u u' hu hr => ?_
    rw [(op.atomic_congr i hu).2, hr]
  | .operation i op .pending => exact local_of_fun (fun _ _ _ => rfl) fun _ _ hu => hu
  | .operation i op .threw => exact local_of_fun (fun _ _ _ => rfl) fun _ _ hu => hu
  | .change i own =>
    refine local_of_fun (fun u c hc => ?_) fun u u' _ c hc => ?_
    · match c with
      | .inl w => rfl
      | .inr (j, x) => exact if_neg fun heq => hc ⟨x, by rw [heq]⟩
    · obtain ⟨x, rfl⟩ := hc
      show (if i = i then own x else _) = if i = i then own x else _
      rw [if_pos rfl, if_pos rfl]

end Means

namespace Lists

variable {s t : Lists κ ι ν T R}

/-! ### The mutexes -/

/-- A thread that has the proxy of a wrapper holds its mutex, and is the only one that has
it. -/
structure Guarded (s : Lists κ ι ν T R) : Prop where
  locked : ∀ w, (s.wrappers w).locked = true ↔ ∃ i, (s.threads i).proxies w ≠ none
  unique : ∀ w i j, (s.threads i).proxies w ≠ none → (s.threads j).proxies w ≠ none → i = j

lemma Guarded.of_eq (h : s.Guarded)
    (hlocked : ∀ w, (t.wrappers w).locked = (s.wrappers w).locked)
    (hproxies : ∀ i w, (t.threads i).proxies w ≠ none ↔ (s.threads i).proxies w ≠ none) :
    t.Guarded := by
  constructor
  · intro w
    rw [hlocked, h.locked]
    simp only [hproxies]
  · intro w i j hi hj
    exact h.unique w i j ((hproxies i w).mp hi) ((hproxies j w).mp hj)

/-! ### The order of the operations -/

lemma getElem?_snoc {α : Type} {log : List α} {e x : α} {k : ℕ}
    (h : (log ++ [e])[k]? = some x) : log[k]? = some x ∨ k = log.length ∧ x = e := by
  by_cases hlt : k < log.length
  · rw [List.getElem?_append_left hlt] at h
    exact Or.inl h
  · have hlen := (List.getElem?_eq_some_iff.mp h).1
    simp only [List.length_append, List.length_singleton] at hlen
    obtain rfl : k = log.length := by omega
    rw [List.getElem?_concat_length] at h
    exact Or.inr ⟨rfl, (Option.some.inj h).symm⟩

lemma getElem?_set {α : Type} {log : List α} {e x : α} {n k : ℕ}
    (h : (log.set n e)[k]? = some x) : k ≠ n ∧ log[k]? = some x ∨ k = n ∧ x = e := by
  by_cases hk : n = k
  · subst hk
    have hlt := (List.getElem?_eq_some_iff.mp h).1
    rw [List.length_set] at hlt
    rw [List.getElem?_set_self hlt] at h
    exact Or.inr ⟨rfl, (Option.some.inj h).symm⟩
  · rw [List.getElem?_set_ne hk] at h
    exact Or.inl ⟨Ne.symm hk, h⟩

/-- The operation of the proxy `p` of the thread `i` has its place in the log, and what comes
after it is about other lists. -/
structure Awaits (log : List (ListsEntry κ ι ν T R)) (i : ι) (p : CallProxy κ ν T R) : Prop where
  entry : log[p.place]? = some (.operation i p.operation .pending)
  later : ∀ k e, p.place < k → log[k]? = some e → Disjoint e.cells (p.operation.cells i)

namespace Awaits

variable {log : List (ListsEntry κ ι ν T R)} {i : ι} {p : CallProxy κ ν T R}

lemma place_lt (h : Awaits log i p) : p.place < log.length :=
  (List.getElem?_eq_some_iff.mp h.entry).1

lemma here (log : List (ListsEntry κ ι ν T R)) (i : ι) (op : Operation κ ν T R) :
    Awaits (log ++ [.operation i op .pending]) i ⟨op, .call, log.length⟩ := by
  constructor
  · simp
  · intro k e hk he
    have hlt := (List.getElem?_eq_some_iff.mp he).1
    simp only [List.length_append, List.length_singleton] at hlt
    have hle : log.length < k := hk
    omega

lemma snoc (h : Awaits log i p) {e : ListsEntry κ ι ν T R}
    (hdisj : Disjoint e.cells (p.operation.cells i)) : Awaits (log ++ [e]) i p := by
  constructor
  · rw [List.getElem?_append_left h.place_lt, h.entry]
  · intro k e' hk he'
    rcases getElem?_snoc he' with he' | ⟨-, rfl⟩
    · exact h.later k e' hk he'
    · exact hdisj

lemma set (h : Awaits log i p) {n : ℕ} {e e' : ListsEntry κ ι ν T R} (hn : n ≠ p.place)
    (he : log[n]? = some e) (hcells : e'.cells = e.cells) : Awaits (log.set n e') i p := by
  constructor
  · rw [List.getElem?_set_ne hn, h.entry]
  · intro k x hk hx
    rcases getElem?_set hx with ⟨-, hx⟩ | ⟨rfl, rfl⟩
    · exact h.later k x hk hx
    · rw [hcells]
      exact h.later k e hk he

/-- Two operations that wait in one place are one. -/
lemma eq_of_place (h : Awaits log i p) {j : ι} {q : CallProxy κ ν T R} (hq : Awaits log j q)
    (heq : p.place = q.place) : i = j ∧ p.operation = q.operation := by
  have hentry := h.entry
  rw [heq, hq.entry] at hentry
  simp only [Option.some.injEq, ListsEntry.operation.injEq] at hentry
  exact ⟨hentry.1.symm, hentry.2.1.symm⟩

end Awaits

/-- Operations on different wrappers, of which one thread hands its own lists to one at the
most, are about different lists. -/
lemma disjoint_cells {op op' : Operation κ ν T R} {i j : ι} (htarget : op.target ≠ op'.target)
    (hown : i = j → op.UsesOwn → ¬ op'.UsesOwn) : Disjoint (op.cells i) (op'.cells j) := by
  rw [Set.disjoint_left]
  rintro c (rfl | ⟨hop, x, rfl⟩) (heq | ⟨hop', y, heq⟩)
  · exact htarget (Sum.inl.inj heq)
  · cases heq
  · cases heq
  · exact hown (Prod.mk.inj (Sum.inr.inj heq)).1 hop hop'

/-- The operations that have not been carried out. -/
structure Orderly (s : Lists κ ι ν T R) : Prop where
  target : ∀ i w p, (s.threads i).proxies w = some p → p.operation.target = w
  /-- What the log has as pending is in progress. -/
  pending : ∀ k i op, s.log[k]? = some (.operation i op .pending) →
    (s.threads i).proxies op.target = some ⟨op, .call, k⟩
  awaits : ∀ i w p, (s.threads i).proxies w = some p → p.pc = .call → Awaits s.log i p
  /-- The thread keeps its own lists for the operation that gets them. -/
  handing : ∀ i w p, (s.threads i).proxies w = some p → p.pc = .call →
    p.operation.UsesOwn → (s.threads i).handing = some w

lemma handingAfter_eq_some [DecidableEq κ] {th : ListThread κ ν T R} {w w' : κ}
    (h : th.handing = some w') (hw : w' ≠ w) : th.handingAfter w = some w' := by
  rw [ListThread.handingAfter, h, if_neg fun heq => hw (Option.some.inj heq)]

lemma contents_of_eq (hdata : ∀ w, (t.wrappers w).data = (s.wrappers w).data)
    (hown : ∀ i, (t.threads i).own = (s.threads i).own) : t.contents = s.contents := by
  ext1 c
  match c with
  | .inl w => exact hdata w
  | .inr (i, x) => exact congrFun (hown i) x

section Threads

variable [DecidableEq ι]

lemma own_update (threads : ι → ListThread κ ν T R) (th : ListThread κ ν T R) (i j : ι) :
    (Function.update threads i th j).own = if j = i then th.own else (threads j).own := by
  by_cases hj : j = i
  · subst hj
    rw [Function.update_self, if_pos rfl]
  · rw [Function.update_of_ne hj, if_neg hj]

lemma own_update_of_eq {threads : ι → ListThread κ ν T R} {th : ListThread κ ν T R} {i : ι}
    (hth : th.own = (threads i).own) (j : ι) :
    (Function.update threads i th j).own = (threads j).own := by
  rw [own_update]
  split
  · rename_i hj
    rw [hth, hj]
  · rfl

lemma Orderly.change (h : s.Orderly) {i : ι} (hhanding : (s.threads i).handing = none)
    (own : ν → List T) :
    Orderly { s with
      threads := Function.update s.threads i { s.threads i with own := own }
      log := s.log ++ [.change i own] } := by
  have hthreads : ∀ j, (Function.update s.threads i { s.threads i with own := own } j).proxies =
        (s.threads j).proxies ∧
      (Function.update s.threads i { s.threads i with own := own } j).handing =
        (s.threads j).handing := by
    intro j
    by_cases hj : j = i
    · subst hj
      simp
    · simp [hj]
  refine ⟨fun j w q hq => ?_, fun k j op hk => ?_, fun j w q hq hqc => ?_,
    fun j w q hq hqc hown => ?_⟩
  · simp only [hthreads] at hq
    exact h.target j w q hq
  · simp only [hthreads]
    rcases getElem?_snoc hk with hk | ⟨-, heq⟩
    · exact h.pending k j op hk
    · cases heq
  · simp only [hthreads] at hq
    refine (h.awaits j w q hq hqc).snoc ?_
    rw [Set.disjoint_left]
    rintro c ⟨x, rfl⟩ (heq | ⟨hown, y, heq⟩)
    · cases heq
    · -- the thread that changes its lists has not handed them to anybody
      obtain rfl := (Prod.mk.inj (Sum.inr.inj heq)).1
      have hkept := h.handing i w q hq hqc hown
      rw [hhanding] at hkept
      cases hkept
  · simp only [hthreads] at hq ⊢
    exact h.handing j w q hq hqc hown

variable [DecidableEq κ]

lemma proxies_update (threads : ι → ListThread κ ν T R) (own : ν → List T) (i : ι) (w : κ)
    (o : Option (CallProxy κ ν T R)) (handing : Option κ) (j : ι) (w' : κ) :
    (Function.update threads i ⟨own, Function.update (threads i).proxies w o, handing⟩
      j).proxies w' = if j = i ∧ w' = w then o else (threads j).proxies w' := by
  by_cases hj : j = i
  · subst hj
    rw [Function.update_self]
    show Function.update (threads j).proxies w o w' = _
    by_cases hw : w' = w
    · subst hw
      rw [Function.update_self, if_pos ⟨rfl, rfl⟩]
    · rw [Function.update_of_ne hw, if_neg fun h => hw h.2]
  · rw [Function.update_of_ne hj, if_neg fun h => hj h.1]

lemma Orderly.lock (hg : s.Guarded) (h : s.Orderly) {i : ι} {op : Operation κ ν T R}
    (hfree : (s.wrappers op.target).locked = false)
    (hhanding : op.UsesOwn → (s.threads i).handing = none) :
    Orderly
      { wrappers := Function.update s.wrappers op.target
          { s.wrappers op.target with locked := true }
        threads := Function.update s.threads i { s.threads i with
          proxies := Function.update (s.threads i).proxies op.target
            (some ⟨op, .call, s.log.length⟩)
          handing := if op.UsesOwn then some op.target else (s.threads i).handing }
        log := s.log ++ [.operation i op .pending] } := by
  -- the operations that wait have locked other wrappers
  have hne : ∀ j w p, (s.threads j).proxies w = some p → p.operation.target ≠ op.target := by
    intro j w p hp heq
    have hlocked := (hg.locked w).mpr ⟨j, by simp [hp]⟩
    rw [← h.target j w p hp, heq, hfree] at hlocked
    cases hlocked
  refine ⟨fun j w p hp => ?_, fun k j op' hk => ?_, fun j w p hp hpc => ?_,
    fun j w p hp hpc hown => ?_⟩
  · simp only [proxies_update] at hp
    split at hp
    · rename_i hjw
      obtain rfl := Option.some.inj hp
      exact hjw.2.symm
    · exact h.target j w p hp
  · simp only [proxies_update]
    rcases getElem?_snoc hk with hk | ⟨rfl, heq⟩
    · have hwaits := h.pending k j op' hk
      rw [if_neg fun hjw => hne j _ _ hwaits hjw.2]
      exact hwaits
    · cases heq
      exact if_pos ⟨rfl, rfl⟩
  · simp only [proxies_update] at hp
    split at hp
    · rename_i hjw
      obtain rfl := Option.some.inj hp
      obtain ⟨rfl, -⟩ := hjw
      exact Awaits.here s.log j op
    · refine (h.awaits j w p hp hpc).snoc (disjoint_cells (hne j w p hp).symm ?_)
      rintro rfl hown hown'
      have hkept := h.handing i w p hp hpc hown'
      rw [hhanding hown] at hkept
      cases hkept
  · simp only [proxies_update] at hp
    split at hp
    · rename_i hjw
      obtain rfl := Option.some.inj hp
      obtain ⟨rfl, rfl⟩ := hjw
      simp only [Function.update_self]
      exact if_pos hown
    · rename_i hjw
      have hkept := h.handing j w p hp hpc hown
      by_cases hj : j = i
      · subst hj
        -- the new operation gets no lists: these wait already
        have hnot : ¬ op.UsesOwn := fun hop => by
          rw [hhanding hop] at hkept
          cases hkept
        simpa only [Function.update_self, if_neg hnot] using hkept
      · simpa only [Function.update_of_ne hj] using hkept

section Release

variable {i : ι} {w : κ} {p : CallProxy κ ν T R} {o : Option (CallProxy κ ν T R)}
  {own : ν → List T}

/-- The proxy of an operation is replaced by one for the same operation, or by none. -/
lemma Orderly.target_update (h : s.Orderly) (hp : (s.threads i).proxies w = some p)
    (ho : ∀ q, o = some q → q.operation = p.operation) (handing : Option κ) (j : ι) (w' : κ)
    (q : CallProxy κ ν T R) (hq : (Function.update s.threads i
      ⟨own, Function.update (s.threads i).proxies w o, handing⟩ j).proxies w' = some q) :
    q.operation.target = w' := by
  rw [proxies_update] at hq
  split at hq
  · rename_i hjw
    obtain ⟨rfl, rfl⟩ := hjw
    rw [ho q hq]
    exact h.target j w' p hp
  · exact h.target j w' q hq

lemma Orderly.handing_update (h : s.Orderly) (ho : ∀ q, o = some q → q.pc ≠ .call) (j : ι)
    (w' : κ) (q : CallProxy κ ν T R) (hq : (Function.update s.threads i
      ⟨own, Function.update (s.threads i).proxies w o, (s.threads i).handingAfter w⟩
        j).proxies w' = some q) (hqc : q.pc = .call) (hown : q.operation.UsesOwn) :
    (Function.update s.threads i
      ⟨own, Function.update (s.threads i).proxies w o, (s.threads i).handingAfter w⟩
        j).handing = some w' := by
  rw [proxies_update] at hq
  split at hq
  · exact absurd hqc (ho q hq)
  · rename_i hjw
    have hkept := h.handing j w' q hq hqc hown
    by_cases hj : j = i
    · subst hj
      rw [Function.update_self]
      exact handingAfter_eq_some hkept fun heq => hjw ⟨rfl, heq⟩
    · rw [Function.update_of_ne hj]
      exact hkept

/-- What is pending in another place of the log is not the operation that waits no longer. -/
lemma Orderly.pending_update (h : s.Orderly) (hp : (s.threads i).proxies w = some p)
    {k : ℕ} {j : ι} {op : Operation κ ν T R}
    (hk : s.log[k]? = some (.operation j op .pending)) (hne : p.pc = .call → k ≠ p.place)
    (handing : Option κ) :
    (Function.update s.threads i ⟨own, Function.update (s.threads i).proxies w o, handing⟩
      j).proxies op.target = some ⟨op, .call, k⟩ := by
  have hwaits := h.pending k j op hk
  rw [proxies_update, if_neg]
  · exact hwaits
  · rintro ⟨rfl, hw⟩
    rw [hw, hp] at hwaits
    obtain rfl := Option.some.inj hwaits
    exact hne rfl rfl

/-- An operation has been carried out, or will not be: it waits no longer. -/
lemma Orderly.call (h : s.Orderly) (hp : (s.threads i).proxies w = some p) (hpc : p.pc = .call)
    (wrappers : κ → Wrapper (List T)) (own : ν → List T) {outcome : Outcome R}
    (houtcome : outcome ≠ .pending)
    (ho : ∀ q, o = some q → q.operation = p.operation ∧ q.pc ≠ .call) :
    Orderly
      { wrappers := wrappers
        threads := Function.update s.threads i
          ⟨own, Function.update (s.threads i).proxies w o, (s.threads i).handingAfter w⟩
        log := s.log.set p.place (.operation i p.operation outcome) } := by
  have hawaits := h.awaits i w p hp hpc
  refine ⟨h.target_update hp (fun q hq => (ho q hq).1) _, fun k j op hk => ?_,
    fun j w' q hq hqc => ?_, h.handing_update fun q hq => (ho q hq).2⟩
  · rcases getElem?_set hk with ⟨hne, hk⟩ | ⟨-, heq⟩
    · exact h.pending_update hp hk (fun _ => hne) _
    · cases heq
      exact absurd rfl houtcome
  · simp only [proxies_update] at hq
    split at hq
    · exact absurd hqc (ho q hq).2
    · rename_i hjw
      have hqawaits := h.awaits j w' q hq hqc
      refine hqawaits.set (fun hplace => hjw ?_) hawaits.entry rfl
      obtain ⟨rfl, hop⟩ := hawaits.eq_of_place hqawaits hplace
      refine ⟨rfl, ?_⟩
      rw [← h.target i w' q hq, ← h.target i w p hp, hop]

lemma Orderly.unlock (h : s.Orderly) (hp : (s.threads i).proxies w = some p)
    (hpc : p.pc ≠ .call) (wrappers : κ → Wrapper (List T)) :
    Orderly { s with
      wrappers := wrappers
      threads := Function.update s.threads i { s.threads i with
        proxies := Function.update (s.threads i).proxies w none
        handing := (s.threads i).handingAfter w } } := by
  refine ⟨h.target_update hp (by simp) _, fun k j op hk => ?_, fun j w' q hq hqc => ?_,
    h.handing_update (by simp)⟩
  · exact h.pending_update hp hk (fun heq => absurd heq hpc) _
  · simp only [proxies_update] at hq
    split at hq
    · cases hq
    · exact h.awaits j w' q hq hqc

end Release

lemma Guarded.unlock (h : s.Guarded) {i : ι} {w : κ} (hi : (s.threads i).proxies w ≠ none)
    (own : ν → List T) (handing : Option κ) (log : List (ListsEntry κ ι ν T R)) :
    Guarded
      { wrappers := Function.update s.wrappers w { s.wrappers w with locked := false }
        threads := Function.update s.threads i
          ⟨own, Function.update (s.threads i).proxies w none, handing⟩
        log := log } := by
  constructor
  · intro w'
    simp only [proxies_update]
    by_cases hw : w' = w
    · subst hw
      simp only [Function.update_self, Bool.false_eq_true, false_iff, and_true, not_exists,
        not_not]
      intro j
      split
      · rfl
      · rename_i hj
        by_contra hne
        exact hj (h.unique w' j i hne hi)
    · simp only [Function.update_of_ne hw, hw, and_false, if_false]
      exact h.locked w'
  · intro w' j k hj hk
    simp only [proxies_update] at hj hk
    by_cases hw : w' = w
    · subst hw
      have hj' : (s.threads j).proxies w' ≠ none := fun hnone => by simp [hnone] at hj
      have hk' : (s.threads k).proxies w' ≠ none := fun hnone => by simp [hnone] at hk
      exact h.unique w' j k hj' hk'
    · simp only [hw, and_false, if_false] at hj hk
      exact h.unique w' j k hj hk

end Threads

/-! ### The steps -/

variable [DecidableEq κ] [DecidableEq ι] [DecidableEq ν]

lemma guarded_advances {a : ListsAction κ ι ν T R} (h : s.Guarded) (ha : s.Advances a t) :
    t.Guarded := by
  cases ha with
  | lock i op hfree hhanding =>
    -- nobody has a proxy of a wrapper that is free
    have hnone : ∀ j, (s.threads j).proxies op.target = none := by
      intro j
      by_contra hj
      have hlocked := (h.locked op.target).mpr ⟨j, hj⟩
      rw [hfree] at hlocked
      cases hlocked
    constructor
    · intro w
      simp only [proxies_update]
      by_cases hw : w = op.target
      · subst hw
        simp only [Function.update_self, and_true, true_iff]
        exact ⟨i, by simp⟩
      · simp only [Function.update_of_ne hw, hw, and_false, if_false]
        exact h.locked w
    · intro w j k hj hk
      simp only [proxies_update] at hj hk
      by_cases hw : w = op.target
      · subst hw
        by_cases hji : j = i
        · by_cases hki : k = i
          · rw [hji, hki]
          · simp [hki, hnone] at hk
        · simp [hji, hnone] at hj
      · simp only [hw, and_false, if_false] at hj hk
        exact h.unique w j k hj hk
  | threw i w p hp hpc =>
    refine h.of_eq (fun _ => rfl) fun j w' => ?_
    simp only [proxies_update]
    split
    · rename_i hjw
      obtain ⟨rfl, rfl⟩ := hjw
      simp [hp]
    · rfl
  | returned i w p hp hpc hvalid list own r hrun =>
    refine h.of_eq (fun w' => ?_) fun j w' => ?_
    · by_cases hw : w' = w
      · subst hw
        simp
      · simp [hw]
    · simp only [proxies_update]
      split
      · rename_i hjw
        obtain ⟨rfl, rfl⟩ := hjw
        simp [hp]
      · rfl
  | unlock i w p hp hpc => exact h.unlock (by simp [hp]) _ _ _
  | abandon i w p hp hpc => exact h.unlock (by simp [hp]) _ _ _
  | change i own hhanding =>
    refine h.of_eq (fun _ => rfl) fun j w' => ?_
    by_cases hj : j = i
    · subst hj
      simp
    · simp [hj]

lemma orderly_advances {a : ListsAction κ ι ν T R} (hg : s.Guarded) (h : s.Orderly)
    (ha : s.Advances a t) : t.Orderly := by
  cases ha with
  | lock i op hfree hhanding => exact h.lock hg hfree hhanding
  | threw i w p hp hpc =>
    refine h.call hp hpc _ _ (by simp) ?_
    intro q hq
    obtain rfl := Option.some.inj hq
    exact ⟨rfl, by simp⟩
  | returned i w p hp hpc hvalid list own r hrun =>
    refine h.call hp hpc _ _ (by simp) ?_
    intro q hq
    obtain rfl := Option.some.inj hq
    exact ⟨rfl, by simp⟩
  | unlock i w p hp hpc => exact h.unlock hp hpc _
  | abandon i w p hp hpc => exact h.call hp hpc _ _ (by simp) (by simp)
  | change i own hhanding => exact h.change hhanding own

/-- A step that changes no list and has no entry. -/
lemma replay_keep {log : List (ListsEntry κ ι ν T R)} {u : κ ⊕ ι × ν → List T}
    (hr : Replay ListsEntry.Means u log s.contents)
    (hdata : ∀ w, (t.wrappers w).data = (s.wrappers w).data)
    (hown : ∀ i, (t.threads i).own = (s.threads i).own) :
    Replay ListsEntry.Means u log t.contents := by
  rw [contents_of_eq hdata hown]
  exact hr

/-- An operation that has waited is carried out as if in its place. -/
lemma replay_call {i : ι} {p : CallProxy κ ν T R} {u v : κ ⊕ ι × ν → List T}
    (h : Awaits s.log i p) (hr : Replay ListsEntry.Means u s.log s.contents)
    {outcome : Outcome R}
    (hmeans : (ListsEntry.operation i p.operation outcome).Means s.contents v) :
    Replay ListsEntry.Means u (s.log.set p.place (.operation i p.operation outcome)) v := by
  refine hr.set h.entry (fun _ _ heq => heq.symm)
    (ListsEntry.local_means (.operation i p.operation outcome)) (fun k e hk he => ?_) hmeans
  exact ⟨e.cells, e.local_means, h.later k e hk he⟩

/-- Every step is what its entry in the log means. -/
lemma replay_advances {a : ListsAction κ ι ν T R} {u : κ ⊕ ι × ν → List T} (h : s.Orderly)
    (hr : Replay ListsEntry.Means u s.log s.contents) (ha : s.Advances a t) :
    Replay ListsEntry.Means u t.log t.contents := by
  -- a wrapper whose mutex has been locked or unlocked
  have hdata : ∀ w locked w',
      (Function.update s.wrappers w { s.wrappers w with locked := locked } w').data =
        (s.wrappers w').data := by
    intro w locked w'
    by_cases hw : w' = w
    · subst hw
      simp
    · simp [hw]
  cases ha with
  | lock i op hfree hhanding =>
    exact hr.snoc (contents_of_eq (hdata op.target true) (own_update_of_eq rfl))
  | threw i w p hp hpc =>
    exact replay_call (h.awaits i w p hp hpc) hr
      (contents_of_eq (fun _ => rfl) (own_update_of_eq rfl))
  | returned i w p hp hpc hvalid list own r hrun =>
    obtain rfl := h.target i w p hp
    have hatomic : p.operation.run (fun x => s.contents (.inr (i, x)))
        (s.contents (.inl p.operation.target)) = (list, own, r) := hrun
    refine replay_call (h.awaits i _ p hp hpc) hr ⟨?_, ?_⟩
    · ext1 c
      match c with
      | .inl w =>
        by_cases hw : w = p.operation.target
        · subst hw
          rw [Operation.atomic_target, hatomic]
          simp [contents]
        · rw [Operation.atomic_wrapper _ _ _ hw]
          simp [contents, hw]
      | .inr (j, x) =>
        show (Function.update s.threads i _ j).own x = _
        rw [own_update]
        by_cases hj : j = i
        · subst hj
          rw [Operation.atomic_own, hatomic, if_pos rfl]
        · rw [Operation.atomic_thread _ _ _ hj, if_neg hj]
          rfl
    · show (p.operation.run _ _).2.2 = r
      rw [hatomic]
  | unlock i w p hp hpc => exact replay_keep hr (hdata w false) (own_update_of_eq rfl)
  | abandon i w p hp hpc =>
    exact replay_call (h.awaits i w p hp hpc) hr
      (contents_of_eq (hdata w false) (own_update_of_eq rfl))
  | change i own hhanding =>
    refine hr.snoc ?_
    show _ = _
    ext1 c
    match c with
    | .inl w => rfl
    | .inr (j, x) =>
      show (Function.update s.threads i _ j).own x = if j = i then own x else _
      rw [own_update]
      split
      · rfl
      · rfl

/-! ### Append -/

/-- The thread `i` has moved `items` from its list `source`, of which `rest` is left, to the
end of the list of the wrapper `w`. -/
structure Appended (s t : Lists κ ι ν T R) (i : ι) (w : κ) (source : ν) (items rest : List T) :
    Prop where
  wrapped : (t.wrappers w).data = (s.wrappers w).data ++ items
  kept : (t.threads i).own source = rest
  /-- Nothing is lost or duplicated. -/
  perm : ((s.threads i).own source).Perm (items ++ rest)
  /-- The other lists are left alone. -/
  others : ∀ c, c ≠ .inl w → c ≠ .inr (i, source) → t.contents c = s.contents c

lemma appended_of_advances {i : ι} {w : κ} {source : ν} {p : CallProxy κ ν T R}
    {items rest : List T} (ha : s.Advances (.call i w false) t)
    (hp : (s.threads i).proxies w = some p)
    (hrun : p.operation.run (s.threads i).own (s.wrappers w).data =
      (splice (s.wrappers w).data (s.wrappers w).data.length items,
        Function.update (s.threads i).own source rest, none))
    (hperm : ((s.threads i).own source).Perm (items ++ rest)) :
    Appended s t i w source items rest := by
  cases ha with
  | returned _ _ q hq hpc hvalid list own r hrun' =>
    obtain rfl := Option.some.inj (hp.symm.trans hq)
    rw [hrun] at hrun'
    obtain ⟨rfl, rfl, rfl⟩ : _ = list ∧ _ = own ∧ _ = r := by simpa using hrun'
    refine ⟨?_, ?_, hperm, ?_⟩
    · simp only [Function.update_self]
      exact splice_length _ _
    · simp
    · intro c hw hsource
      match c with
      | .inl w' =>
        have hw' : w' ≠ w := fun heq => hw (by rw [heq])
        simp [contents, hw']
      | .inr (j, x) =>
        show (Function.update s.threads i _ j).own x = (s.threads j).own x
        rw [own_update]
        by_cases hj : j = i
        · subst hj
          have hx : x ≠ source := fun heq => hsource (by rw [heq])
          rw [if_pos rfl]
          exact Function.update_of_ne hx _ _
        · rw [if_neg hj]

lemma perm_eraseIdx {l : List T} {pos : ℕ} {x : T} (h : l[pos]? = some x) :
    l.Perm ([x] ++ l.eraseIdx pos) := by
  obtain ⟨hlt, rfl⟩ := List.getElem?_eq_some_iff.mp h
  exact (List.getElem_cons_eraseIdx_perm hlt).symm

/-! ### The refinement -/

/-- What is promised about a state, when the lists have been `lists` and `own` in the
beginning. -/
structure Refines (lists : κ → List T) (own : ι → ν → List T) (s : Lists κ ι ν T R) : Prop where
  /-- The operations carried out one after another, each in one step, in the order of the log,
  give the lists as they are, and the results that the log records. -/
  replayed : Replay ListsEntry.Means (start lists own : Lists κ ι ν T R).contents s.log
    s.contents
  /-- A lock puts its operation at the end of the log. -/
  ordered : ∀ i op t, s.step (.lock i op) = some t →
    (s.wrappers op.target).locked = false ∧ (t.wrappers op.target).locked = true ∧
      t.log = s.log ++ [.operation i op .pending]
  /-- An operation that the log has as pending is in progress. -/
  recorded : ∀ k i op, s.log[k]? = some (.operation i op .pending) →
    (s.threads i).proxies op.target = some ⟨op, .call, k⟩
  /-- The mutex is free if and only if nobody is in an operation on the wrapper. -/
  free : ∀ w, (s.wrappers w).locked = false ↔ ∀ i, (s.threads i).proxies w = none
  /-- No two threads are in an operation on one wrapper. -/
  exclusive : ∀ w i j, (s.threads i).proxies w ≠ none → (s.threads j).proxies w ≠ none → i = j
  /-- A call that throws leaves the lists. -/
  threw : ∀ i w t, s.step (.call i w true) = some t → t.contents = s.contents
  /-- `Append` of one item. -/
  appendAt : ∀ i w source pos place t,
    (s.threads i).proxies w = some ⟨.appendAt w source pos, .call, place⟩ →
    s.step (.call i w false) = some t → ∃ x, ((s.threads i).own source)[pos]? = some x ∧
      Appended s t i w source [x] (((s.threads i).own source).eraseIdx pos)
  /-- `Append` of a list. -/
  appendAll : ∀ i w source place t,
    (s.threads i).proxies w = some ⟨.appendAll w source, .call, place⟩ →
    s.step (.call i w false) = some t →
      Appended s t i w source ((s.threads i).own source) []

lemma refines_of_sound {lists : κ → List T} {own : ι → ν → List T} (hg : s.Guarded)
    (h : s.Orderly) (hr : Replay ListsEntry.Means (start lists own : Lists κ ι ν T R).contents
      s.log s.contents) : s.Refines lists own where
  replayed := hr
  ordered i op t ht := by
    cases advances_of_step ht with
    | lock _ _ hfree hhanding => exact ⟨hfree, by simp, rfl⟩
  recorded := h.pending
  free w := by
    have hlocked := (hg.locked w).not
    simpa using hlocked
  exclusive := hg.unique
  threw i w t ht := by
    cases advances_of_step ht with
    | threw _ _ p hp hpc => exact contents_of_eq (fun _ => rfl) (own_update_of_eq rfl)
  appendAt i w source pos place t hp ht := by
    have ha := advances_of_step ht
    obtain ⟨x, hx⟩ : ∃ x, ((s.threads i).own source)[pos]? = some x := by
      cases ha with
      | returned _ _ q hq hpc hvalid =>
        obtain rfl := Option.some.inj (hp.symm.trans hq)
        exact ⟨_, List.getElem?_eq_getElem hvalid⟩
    refine ⟨x, hx, appended_of_advances ha hp ?_ (perm_eraseIdx hx)⟩
    simp only [Operation.run, hx, Option.toList_some]
  appendAll i w source place t hp ht := by
    refine appended_of_advances (advances_of_step ht) hp rfl ?_
    simp

lemma refines_of_reachable {lists : κ → List T} {own : ι → ν → List T}
    (h : (wrappedLists lists own).Reachable s) : s.Refines lists own := by
  have hinv : s.Guarded ∧ s.Orderly ∧ Replay ListsEntry.Means
      (start lists own : Lists κ ι ν T R).contents s.log s.contents := by
    refine h.invariant (I := fun s => s.Guarded ∧ s.Orderly ∧ Replay ListsEntry.Means
      (start lists own : Lists κ ι ν T R).contents s.log s.contents) ?_ ?_
    · rintro s rfl
      refine ⟨⟨by simp [start, Wrapper.create], by simp [start]⟩, ⟨?_, ?_, ?_, ?_⟩, .nil _⟩ <;>
        simp [start]
    · rintro s a t ⟨hg, ho, hr⟩ ha
      have ha := advances_of_step ha
      exact ⟨guarded_advances hg ha, orderly_advances hg ho ha, replay_advances ho hr ha⟩
  exact refines_of_sound hinv.1 hinv.2.1 hinv.2.2

end Lists

variable [DecidableEq κ] [DecidableEq ι] [DecidableEq ν]

/-- **Wrapped lists refine atomic lists.**  In every run of any number of threads with any
operations on any number of wrapped lists, the lists and the results are those of the
operations in one step each, in the order in which they have locked; a mutex is free whenever
nobody is in an operation on its wrapper; and every `Append` moves its items to the end of the
list, and these only. -/
theorem wrappedLists_atomic {lists : κ → List T} {own : ι → ν → List T}
    {s : Lists κ ι ν T R} (h : (wrappedLists lists own).Reachable s) : s.Refines lists own :=
  Lists.refines_of_reachable h

/-- Wrappers `false` and `true`, threads `0` and `1`.  The thread `0` is in
`a->push_back(b->front())` while the thread `1` appends to `b`; the `push_back` throws and is
tried again, and the thread `1` appends what it has left to `a`. -/
theorem wrappedLists_atomic_nested : ∃ s : Lists Bool ℕ Unit ℕ ℕ,
    (wrappedLists (fun w => if w then [7] else []) fun _ _ => []).Reachable s ∧
    s.contents (.inl false) = [7, 1, 3] ∧ s.contents (.inl true) = [7, 2] ∧
    s.Refines (fun w => if w then [7] else []) fun _ _ => [] := by
  let push : Operation Bool Unit ℕ ℕ := .call false fun list => (list ++ [7], 0)
  let front : Operation Bool Unit ℕ ℕ := .call true fun list => (list, list.headD 0)
  have h₀ : (wrappedLists (fun w => if w then [7] else []) fun _ _ => []).Reachable
      (.start (fun w => if w then [7] else []) fun _ _ => [] : Lists Bool ℕ Unit ℕ ℕ) :=
    .of_init rfl
  obtain ⟨s, hs, ha, hb⟩ : ∃ s : Lists Bool ℕ Unit ℕ ℕ,
      (wrappedLists (fun w => if w then [7] else []) fun _ _ => []).exec
        (.start (fun w => if w then [7] else []) fun _ _ => [])
        [.lock 0 push, .change 1 fun _ => [1, 2, 3], .lock 0 front, .call 0 true false,
          .unlock 0 true, .lock 1 (.appendAt true () 1), .call 0 false true,
          .call 1 true false, .unlock 0 false, .lock 0 push, .unlock 1 true,
          .call 0 false false, .unlock 0 false, .lock 1 (.appendAll false ()),
          .call 1 false false] = some s ∧
      s.contents (.inl false) = [7, 1, 3] ∧ s.contents (.inl true) = [7, 2] :=
    ⟨_, rfl, rfl, rfl⟩
  exact ⟨s, h₀.exec hs, ha, hb, wrappedLists_atomic (h₀.exec hs)⟩

end EventManager
