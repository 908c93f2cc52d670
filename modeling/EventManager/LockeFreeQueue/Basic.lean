import EventManager.Lib.Heap
import EventManager.Lib.Machine

/-!
# LockeFreeQueue

The queue of `inc/LockeFreeQueue.h`: a linked list from `head_` to `tail_` whose first node
is a dummy.  Any number of threads call `emplace_back`, one thread calls `swap`, and the
steps of the calls interleave: the allocation of a node, the exchange of `tail_`, the store
and the loads of `next`, the `delete` of a node and the move of its data.

The functions `LockeFreeQueue.emplaceBack` and `LockeFreeQueue.swap` take one step of a
call.  A step that goes through a pointer to a deleted node has no result.
-/

namespace EventManager

open Steps

/-- A node of the list. -/
structure Node (T : Type) where
  /-- `data`. -/
  data : T
  /-- `next`. -/
  next : Option ℕ
deriving DecidableEq, Repr

/-- The members of the queue, and the store that its nodes live in. -/
structure LockeFreeQueue (T : Type) where
  /-- The store of nodes. -/
  heap : Heap (Node T)
  /-- `head_`. -/
  head : ℕ
  /-- `tail_`. -/
  tail : ℕ

/-- The step that a call of `emplace_back` takes next. -/
inductive EmplacePc (T : Type)
  /-- `new Node(args)`. -/
  | alloc (args : T)
  /-- `tail_.exchange(newNode)`. -/
  | exchange (args : T) (newNode : ℕ)
  /-- `prev->next.store(newNode)`. -/
  | link (prev newNode : ℕ)
deriving DecidableEq, Repr

/-- The step that a call of `swap` takes next. -/
inductive SwapPc
  /-- `next = cur->next.load()`, and the test of the loop. -/
  | load (cur : ℕ)
  /-- `delete cur; cur = next`. -/
  | delete (cur next : ℕ)
  /-- `out.emplace_back(std::move(cur->data))`. -/
  | move (cur : ℕ)
  /-- `head_ = cur`. -/
  | finish (cur : ℕ)
deriving DecidableEq, Repr

namespace LockeFreeQueue

variable {T : Type} [Inhabited T]

/-- The constructor: the dummy is the first node to be allocated. -/
def create : LockeFreeQueue T :=
  ⟨(Heap.empty).alloc ⟨default, none⟩, 0, 0⟩

/-- The call of `emplace_back` with the arguments `args` begins. -/
def callEmplaceBack (args : T) : EmplacePc T := .alloc args

/-- One step of `emplace_back`, and the step after it, `none` when the call has returned. -/
def emplaceBack (q : LockeFreeQueue T) :
    EmplacePc T → Option (LockeFreeQueue T × Option (EmplacePc T))
  | .alloc args =>
    some ({ q with heap := q.heap.alloc ⟨args, none⟩ }, some (.exchange args q.heap.fresh))
  | .exchange _ newNode => some ({ q with tail := newNode }, some (.link q.tail newNode))
  | .link prev newNode =>
    (q.heap.modify prev fun x => { x with next := some newNode }).map fun h =>
      ({ q with heap := h }, none)

/-- The call of `swap` begins: `cur = head_`. -/
def callSwap (q : LockeFreeQueue T) : SwapPc := .load q.head

/-- One step of `swap`: the elements that it appends to `out`, and the step after it.  The
data that a node is left with after the move is never read. -/
def swap (q : LockeFreeQueue T) :
    SwapPc → Option (LockeFreeQueue T × List T × Option SwapPc)
  | .load cur =>
    (q.heap.cell cur).map fun x => (q, [], some (match x.next with
      | some next => .delete cur next
      | none => .finish cur))
  | .delete cur next =>
    (q.heap.delete cur).map fun h => ({ q with heap := h }, [], some (.move next))
  | .move cur =>
    (q.heap.cell cur).bind fun x =>
      (q.heap.modify cur fun x => { x with data := default }).map fun h =>
        ({ q with heap := h }, [x.data], some (.load cur))
  | .finish cur => some ({ q with head := cur }, [], none)

/-- The loop of the destructor from `node` on, in at most `fuel` rounds: the store that it
leaves, if it ends and never goes through a dangling pointer. -/
def destroy : ℕ → Heap (Node T) → Option ℕ → Option (Heap (Node T))
  | _, h, none => some h
  | 0, _, some _ => none
  | fuel + 1, h, some node =>
    (h.cell node).bind fun x => (h.delete node).bind fun h' => destroy fuel h' x.next

/-- The destructor. -/
def destructor (fuel : ℕ) (q : LockeFreeQueue T) : Option (Heap (Node T)) :=
  destroy fuel q.heap (some q.head)

/-! ### The threads -/

/-- An element that has been emplaced: an exchange on `tail_`. -/
structure Exchange (ι T : Type) where
  /-- The thread that calls `emplace_back`. -/
  thread : ι
  /-- The new node. -/
  node : ℕ
  /-- The element. -/
  value : T
deriving DecidableEq, Repr

/-- A queue, the calls in progress, and what has happened so far. -/
structure Threads (ι T : Type) where
  /-- The queue. -/
  queue : LockeFreeQueue T
  /-- The call of `emplace_back` that a thread is in. -/
  emplace : ι → Option (EmplacePc T)
  /-- The call of `swap` that the consuming thread is in. -/
  swap : Option SwapPc
  /-- The arguments of the calls of a thread, oldest first. -/
  calls : ι → List T
  /-- The exchanges on `tail_`, oldest first. -/
  exchanged : List (Exchange ι T)
  /-- The elements that the calls of `swap` have appended to their lists. -/
  out : List T

/-- The steps of the threads: to call an operation, or to go on in the call. -/
inductive Action (ι T : Type)
  | callEmplace (i : ι) (args : T)
  | emplace (i : ι)
  | callSwap
  | swap
deriving DecidableEq

/-- The exchange that a step of `emplace_back` makes, if any. -/
def exchangeOf {ι : Type} (i : ι) : EmplacePc T → List (Exchange ι T)
  | .exchange args newNode => [⟨i, newNode, args⟩]
  | _ => []

namespace Threads

variable {ι : Type} [DecidableEq ι]

/-- A new queue that no thread uses. -/
def start (ι T : Type) [Inhabited T] : Threads ι T :=
  ⟨.create, fun _ => none, none, fun _ => [], [], []⟩

/-- The effect of a step. -/
def next (s : Threads ι T) : Action ι T → Option (Threads ι T)
  | .callEmplace i args =>
    match s.emplace i with
    | none => some { s with
        emplace := Function.update s.emplace i (some (callEmplaceBack args))
        calls := Function.update s.calls i (s.calls i ++ [args]) }
    | some _ => none
  | .emplace i =>
    match s.emplace i with
    | none => none
    | some pc => (s.queue.emplaceBack pc).map fun p => { s with
        queue := p.1
        emplace := Function.update s.emplace i p.2
        exchanged := s.exchanged ++ exchangeOf i pc }
  | .callSwap =>
    match s.swap with
    | none => some { s with swap := some s.queue.callSwap }
    | some _ => none
  | .swap =>
    match s.swap with
    | none => none
    | some pc => (s.queue.swap pc).map fun p => { s with
        queue := p.1, swap := p.2.2, out := s.out ++ p.2.1 }

end Threads

/-- Any number of threads that call `emplace_back` and one thread that calls `swap`, on a
new queue. -/
def threads (ι T : Type) [DecidableEq ι] [Inhabited T] : Machine (Threads ι T) (Action ι T) where
  init s := s = Threads.start ι T
  next := Threads.next

/-! ### Taking a step -/

section

variable {ι : Type} [DecidableEq ι] {s : Threads ι T} {q : LockeFreeQueue T}

lemma next_callEmplace {i : ι} (args : T) (hi : s.emplace i = none) :
    (threads ι T).next s (.callEmplace i args) = some { s with
      emplace := Function.update s.emplace i (some (callEmplaceBack args))
      calls := Function.update s.calls i (s.calls i ++ [args]) } := by
  simp only [threads, Threads.next, hi]

lemma next_emplace {i : ι} {pc : EmplacePc T} {pc' : Option (EmplacePc T)}
    (hi : s.emplace i = some pc) (h : s.queue.emplaceBack pc = some (q, pc')) :
    (threads ι T).next s (.emplace i) = some { s with
      queue := q
      emplace := Function.update s.emplace i pc'
      exchanged := s.exchanged ++ exchangeOf i pc } := by
  simp only [threads, Threads.next, hi, h, Option.map_some]

lemma next_callSwap (hs : s.swap = none) :
    (threads ι T).next s .callSwap = some { s with swap := some s.queue.callSwap } := by
  simp only [threads, Threads.next, hs]

lemma next_swap {pc : SwapPc} {out : List T} {pc' : Option SwapPc} (hs : s.swap = some pc)
    (h : s.queue.swap pc = some (q, out, pc')) :
    (threads ι T).next s .swap = some { s with
      queue := q, swap := pc', out := s.out ++ out } := by
  simp only [threads, Threads.next, hs, h, Option.map_some]

end

/-! ### What the steps do -/

omit [Inhabited T] in
lemma emplaceBack_cases {q q' : LockeFreeQueue T} {pc : EmplacePc T}
    {pc' : Option (EmplacePc T)} (h : q.emplaceBack pc = some (q', pc')) :
    (∃ args, pc = .alloc args ∧ q' = { q with heap := q.heap.alloc ⟨args, none⟩ } ∧
      pc' = some (.exchange args q.heap.fresh)) ∨
    (∃ args newNode, pc = .exchange args newNode ∧ q' = { q with tail := newNode } ∧
      pc' = some (.link q.tail newNode)) ∨
    (∃ prev newNode h', pc = .link prev newNode ∧
      (q.heap.modify prev fun x => { x with next := some newNode }) = some h' ∧
      q' = { q with heap := h' } ∧ pc' = none) := by
  cases pc with
  | alloc args =>
    cases h
    exact Or.inl ⟨args, rfl, rfl, rfl⟩
  | exchange args newNode =>
    cases h
    exact Or.inr (Or.inl ⟨args, newNode, rfl, rfl, rfl⟩)
  | link prev newNode =>
    obtain ⟨h', hm, hp⟩ := Option.map_eq_some_iff.mp h
    cases hp
    exact Or.inr (Or.inr ⟨prev, newNode, h', rfl, hm, rfl, rfl⟩)

lemma swap_cases {q q' : LockeFreeQueue T} {pc : SwapPc} {out : List T}
    {pc' : Option SwapPc} (h : q.swap pc = some (q', out, pc')) :
    (∃ cur x, pc = .load cur ∧ q.heap.cell cur = some x ∧ x.next = none ∧ q' = q ∧
      out = [] ∧ pc' = some (.finish cur)) ∨
    (∃ cur x next, pc = .load cur ∧ q.heap.cell cur = some x ∧ x.next = some next ∧
      q' = q ∧ out = [] ∧ pc' = some (.delete cur next)) ∨
    (∃ cur next h', pc = .delete cur next ∧ q.heap.delete cur = some h' ∧
      q' = { q with heap := h' } ∧ out = [] ∧ pc' = some (.move next)) ∨
    (∃ cur x h', pc = .move cur ∧ q.heap.cell cur = some x ∧
      (q.heap.modify cur fun x => { x with data := default }) = some h' ∧
      q' = { q with heap := h' } ∧ out = [x.data] ∧ pc' = some (.load cur)) ∨
    (∃ cur, pc = .finish cur ∧ q' = { q with head := cur } ∧ out = [] ∧ pc' = none) := by
  cases pc with
  | load cur =>
    obtain ⟨x, hx, hp⟩ := Option.map_eq_some_iff.mp h
    cases hnext : x.next with
    | none =>
      rw [hnext] at hp
      cases hp
      exact Or.inl ⟨cur, x, rfl, hx, hnext, rfl, rfl, rfl⟩
    | some next =>
      rw [hnext] at hp
      cases hp
      exact Or.inr (Or.inl ⟨cur, x, next, rfl, hx, hnext, rfl, rfl, rfl⟩)
  | delete cur next =>
    obtain ⟨h', hd, hp⟩ := Option.map_eq_some_iff.mp h
    cases hp
    exact Or.inr (Or.inr (Or.inl ⟨cur, next, h', rfl, hd, rfl, rfl, rfl⟩))
  | move cur =>
    obtain ⟨x, hx, hb⟩ := Option.bind_eq_some_iff.mp h
    obtain ⟨h', hm, hp⟩ := Option.map_eq_some_iff.mp hb
    cases hp
    exact Or.inr (Or.inr (Or.inr (Or.inl ⟨cur, x, h', rfl, hx, hm, rfl, rfl, rfl⟩)))
  | finish cur =>
    cases h
    exact Or.inr (Or.inr (Or.inr (Or.inr ⟨cur, rfl, rfl, rfl, rfl⟩)))

lemma threads_cases {ι : Type} [DecidableEq ι] {s t : Threads ι T} {a : Action ι T}
    (h : (threads ι T).next s a = some t) :
    (∃ i args, a = .callEmplace i args ∧ s.emplace i = none ∧ t = { s with
      emplace := Function.update s.emplace i (some (.alloc args))
      calls := Function.update s.calls i (s.calls i ++ [args]) }) ∨
    (∃ i pc q pc', a = .emplace i ∧ s.emplace i = some pc ∧
      s.queue.emplaceBack pc = some (q, pc') ∧ t = { s with
        queue := q
        emplace := Function.update s.emplace i pc'
        exchanged := s.exchanged ++ exchangeOf i pc }) ∨
    (a = .callSwap ∧ s.swap = none ∧ t = { s with swap := some (.load s.queue.head) }) ∨
    (∃ pc q out pc', a = .swap ∧ s.swap = some pc ∧ s.queue.swap pc = some (q, out, pc') ∧
      t = { s with queue := q, swap := pc', out := s.out ++ out }) := by
  cases a with
  | callEmplace i args =>
    simp only [threads, Threads.next] at h
    split at h
    · exact Or.inl ⟨i, args, rfl, ‹_›, (Option.some.inj h).symm⟩
    · cases h
  | emplace i =>
    simp only [threads, Threads.next] at h
    split at h
    · cases h
    · obtain ⟨⟨q, pc'⟩, hq, ht⟩ := Option.map_eq_some_iff.mp h
      exact Or.inr (Or.inl ⟨i, _, q, pc', rfl, ‹_›, hq, ht.symm⟩)
  | callSwap =>
    simp only [threads, Threads.next] at h
    split at h
    · exact Or.inr (Or.inr (Or.inl ⟨rfl, ‹_›, (Option.some.inj h).symm⟩))
    · cases h
  | swap =>
    simp only [threads, Threads.next] at h
    split at h
    · cases h
    · obtain ⟨⟨q, out, pc'⟩, hq, ht⟩ := Option.map_eq_some_iff.mp h
      exact Or.inr (Or.inr (Or.inr ⟨_, q, out, pc', rfl, ‹_›, hq, ht.symm⟩))

end LockeFreeQueue

end EventManager
