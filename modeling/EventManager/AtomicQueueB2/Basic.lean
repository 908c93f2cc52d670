import EventManager.Lib.Bits
import EventManager.Lib.Linearize

/-!
# AtomicQueueB2

The queue of `atomic_queue/include/atomic_queue/atomic_queue.h` from which the manager of app10
takes its `txQueue`, with the template arguments that app10 leaves at their defaults: any number
of threads push and pop (`SPSC` is `false`), and a thread that waits for a slot looks at its
state before it tries again (`MAXIMIZE_THROUGHPUT` is `true`).

A push takes a ticket from `head_` and a pop takes one from `tail_`; both count up and wrap
around.  The ticket leads to a slot (`remap_index`), and the state of the slot says who may
touch its element.  The loads, the exchanges and the stores are the steps, all of them taken as
sequentially consistent, although the code asks for relaxed loads of `head_` and `tail_` and for
acquire and release at the slots.  An access to a slot outside of the arrays has no result.
-/

namespace EventManager

open Steps

/-- `enum State`. -/
inductive AtomicQueueB2.State
  | empty
  | storing
  | stored
  | loading
deriving DecidableEq, Repr

/-- The members of the queue. -/
structure AtomicQueueB2 (T : Type) where
  /-- `head_`, the ticket of the next push. -/
  head : BitVec 32
  /-- `tail_`, the ticket of the next pop. -/
  tail : BitVec 32
  /-- `size_`, the length of the two arrays. -/
  size : BitVec 32
  /-- `states_`. -/
  states : ℕ → AtomicQueueB2.State
  /-- `elements_`. -/
  elements : ℕ → T

namespace AtomicQueueB2

/-- The step that `try_push` takes next, until it has a ticket. -/
inductive TryPushPc (T : Type)
  /-- `head = head_.load()`. -/
  | loadHead (element : T)
  /-- The test `static_cast<int>(head - tail_.load()) >= static_cast<int>(size_)`. -/
  | loadTail (element : T) (head : BitVec 32)
  /-- `head_.compare_exchange_weak(head, head + 1)`. -/
  | exchange (element : T) (head : BitVec 32)
deriving DecidableEq, Repr

/-- The step that `do_push` takes next. -/
inductive DoPushPc (T : Type)
  /-- `state.compare_exchange_weak(expected, STORING)`. -/
  | claim (element : T) (index : ℕ)
  /-- `spin_loop_pause()`, and the test `state.load() != EMPTY`. -/
  | spin (element : T) (index : ℕ)
  /-- `q_element = std::forward<U>(element)`. -/
  | write (element : T) (index : ℕ)
  /-- `state.store(STORED)`. -/
  | publish (index : ℕ)
deriving DecidableEq, Repr

/-- The step that `try_pop` takes next, until it has a ticket. -/
inductive TryPopPc
  /-- `tail = tail_.load()`. -/
  | loadTail
  /-- The test `static_cast<int>(head_.load() - tail) <= 0`. -/
  | loadHead (tail : BitVec 32)
  /-- `tail_.compare_exchange_weak(tail, tail + 1)`. -/
  | exchange (tail : BitVec 32)
deriving DecidableEq, Repr

/-- The step that `do_pop` takes next. -/
inductive DoPopPc (T : Type)
  /-- `state.compare_exchange_weak(expected, LOADING)`. -/
  | claim (index : ℕ)
  /-- `spin_loop_pause()`, and the test `state.load() != STORED`. -/
  | spin (index : ℕ)
  /-- `T element{std::move(q_element)}`. -/
  | read (index : ℕ)
  /-- `state.store(EMPTY)`. -/
  | release (index : ℕ) (element : T)
deriving DecidableEq, Repr

/-- The step that `was_size` takes next: it loads `head_` and `tail_`, and it is not specified
which of them first. -/
inductive SizePc
  | start
  /-- `head_` has been loaded. -/
  | head (head : BitVec 32)
  /-- `tail_` has been loaded. -/
  | tail (tail : BitVec 32)
deriving DecidableEq, Repr

/-- What a thread asks about the size. -/
inductive Query
  | wasSize
  | wasEmpty
  | wasFull
deriving DecidableEq, Repr

/-- The operations of the threads. -/
inductive Op (T : Type)
  | tryPush (element : T)
  | push (element : T)
  | tryPop
  | pop
  | query (what : Query)
deriving DecidableEq, Repr

/-- The results of the operations. -/
inductive Res (T : Type)
  | unit
  | bool (b : Bool)
  /-- `try_push` returns `false`, and the element is still where it was. -/
  | kept (x : T)
  /-- `try_pop` returns `false`, or `true` and an element. -/
  | popped (x : Option T)
  | elem (x : T)
  | nat (n : ℕ)
deriving DecidableEq, Repr

/-- The step of a thread.  `do_push` and `do_pop` are called from the operation that tries, or
from the one that does not. -/
inductive Pc (T : Type)
  | tryPush (pc : TryPushPc T)
  /-- `head_.fetch_add(1)`. -/
  | push (element : T)
  | doPush (trying : Bool) (pc : DoPushPc T)
  | tryPop (pc : TryPopPc)
  /-- `tail_.fetch_add(1)`. -/
  | pop
  | doPop (trying : Bool) (pc : DoPopPc T)
  | query (what : Query) (pc : SizePc)
deriving DecidableEq, Repr

variable {T : Type}

/-! ### The constructor -/

/-- `CACHE_LINE_SIZE`. -/
def CACHE_LINE_SIZE : ℕ := 64

/-- `GetCacheLineIndexBits`. -/
def cacheLineIndexBits : ℕ → ℕ
  | 256 => 8
  | 128 => 7
  | 64 => 6
  | 32 => 5
  | 16 => 4
  | 8 => 3
  | 4 => 2
  | 2 => 1
  | _ => 0

/-- `SHUFFLE_BITS`: a state is one byte. -/
def SHUFFLE_BITS : ℕ := cacheLineIndexBits (CACHE_LINE_SIZE / 1)

/-- `or_equal(x, u)`. -/
def orEqual (x : BitVec 32) (u : ℕ) : BitVec 32 := x ||| x >>> u

/-- `round_up_to_power_of_2`. -/
def roundUpToPowerOf2 (a : BitVec 32) : BitVec 32 :=
  orEqual (orEqual (orEqual (orEqual (orEqual (a - 1) 1) 2) 4) 8) 16 + 1

/-- `remap_index`. -/
def remapIndex (BITS : ℕ) (index : BitVec 32) : BitVec 32 :=
  let mixMask := (1#32 <<< BITS) - 1#32
  let mix := (index ^^^ (index >>> BITS)) &&& mixMask
  index ^^^ mix ^^^ (mix <<< BITS)

/-- The constructor. -/
def create (T : Type) [Inhabited T] (size : BitVec 32) : AtomicQueueB2 T where
  head := 0
  tail := 0
  size :=
    let rounded := roundUpToPowerOf2 size
    let least := 1#32 <<< (SHUFFLE_BITS * 2)
    if rounded < least then least else rounded
  states _ := .empty
  elements _ := default

/-! ### The operations -/

/-- The slot of a ticket. -/
def index (q : AtomicQueueB2 T) (ticket : BitVec 32) : ℕ :=
  (remapIndex SHUFFLE_BITS (ticket &&& (q.size - 1))).toNat

/-- One step of `do_push`, and the step after it.  A weak exchange may fail for no reason
(`spurious`). -/
def doPush (q : AtomicQueueB2 T) (spurious : Bool) :
    DoPushPc T → Option (AtomicQueueB2 T × Option (DoPushPc T))
  | .claim element i =>
    if i < q.size.toNat then
      if q.states i = .empty ∧ spurious = false then
        some ({ q with states := Function.update q.states i .storing }, some (.write element i))
      else some (q, some (.spin element i))
    else none
  | .spin element i =>
    if i < q.size.toNat then
      some (q, some (if q.states i ≠ .empty then .spin element i else .claim element i))
    else none
  | .write element i =>
    if i < q.size.toNat then
      some ({ q with elements := Function.update q.elements i element }, some (.publish i))
    else none
  | .publish i =>
    if i < q.size.toNat then
      some ({ q with states := Function.update q.states i .stored }, none)
    else none

/-- One step of `do_pop`: where it goes on, or the element that it returns. -/
def doPop [Inhabited T] (q : AtomicQueueB2 T) (spurious : Bool) :
    DoPopPc T → Option (AtomicQueueB2 T × (DoPopPc T ⊕ T))
  | .claim i =>
    if i < q.size.toNat then
      if q.states i = .stored ∧ spurious = false then
        some ({ q with states := Function.update q.states i .loading }, .inl (.read i))
      else some (q, .inl (.spin i))
    else none
  | .spin i =>
    if i < q.size.toNat then
      some (q, .inl (if q.states i ≠ .stored then .spin i else .claim i))
    else none
  | .read i =>
    if i < q.size.toNat then
      some ({ q with elements := Function.update q.elements i default },
        .inl (.release i (q.elements i)))
    else none
  | .release i element =>
    if i < q.size.toNat then
      some ({ q with states := Function.update q.states i .empty }, .inr element)
    else none

/-- One step of `try_push`, until it has a ticket. -/
def tryPush (q : AtomicQueueB2 T) (spurious : Bool) :
    TryPushPc T → AtomicQueueB2 T × (Pc T ⊕ Res T)
  | .loadHead element => (q, .inl (.tryPush (.loadTail element q.head)))
  | .loadTail element head =>
    (q, if q.size.toInt ≤ (head - q.tail).toInt then .inr (.kept element)
      else .inl (.tryPush (.exchange element head)))
  | .exchange element head =>
    if q.head = head ∧ spurious = false then
      ({ q with head := head + 1 }, .inl (.doPush true (.claim element (q.index head))))
    else (q, .inl (.tryPush (.loadTail element q.head)))

/-- The first step of `push`. -/
def push (q : AtomicQueueB2 T) (element : T) : AtomicQueueB2 T × (Pc T ⊕ Res T) :=
  ({ q with head := q.head + 1 }, .inl (.doPush false (.claim element (q.index q.head))))

/-- One step of `try_pop`, until it has a ticket. -/
def tryPop (q : AtomicQueueB2 T) (spurious : Bool) :
    TryPopPc → AtomicQueueB2 T × (Pc T ⊕ Res T)
  | .loadTail => (q, .inl (.tryPop (.loadHead q.tail)))
  | .loadHead tail =>
    (q, if (q.head - tail).toInt ≤ 0 then .inr (.popped none)
      else .inl (.tryPop (.exchange tail)))
  | .exchange tail =>
    if q.tail = tail ∧ spurious = false then
      ({ q with tail := tail + 1 }, .inl (.doPop true (.claim (q.index tail))))
    else (q, .inl (.tryPop (.loadHead q.tail)))

/-- The first step of `pop`. -/
def pop (q : AtomicQueueB2 T) : AtomicQueueB2 T × (Pc T ⊕ Res T) :=
  ({ q with tail := q.tail + 1 }, .inl (.doPop false (.claim (q.index q.tail))))

/-- One step of `was_size`: where it goes on, or the difference of the tickets. -/
def loadTickets (headFirst : Bool) (q : AtomicQueueB2 T) : SizePc → SizePc ⊕ BitVec 32
  | .start => .inl (if headFirst then .head q.head else .tail q.tail)
  | .head head => .inr (head - q.tail)
  | .tail tail => .inr (q.head - tail)

/-- What `was_size` returns for the difference of the tickets. -/
def wasSize (n : BitVec 32) : BitVec 32 := if n.toInt < 0 then 0 else n

/-- What `was_size`, `was_empty` and `was_full` return for the difference of the tickets. -/
def answer (capacity n : BitVec 32) : Query → Res T
  | .wasSize => .nat (wasSize n).toNat
  | .wasEmpty => .bool (wasSize n = 0)
  | .wasFull => .bool (capacity ≤ wasSize n)

/-- The first step of an operation. -/
def start : Op T → Pc T
  | .tryPush element => .tryPush (.loadHead element)
  | .push element => .push element
  | .tryPop => .tryPop .loadTail
  | .pop => .pop
  | .query what => .query what .start

/-- One step of an operation: where it goes on, or what it returns.  The choice is whether a
weak exchange fails for no reason, and which ticket `was_size` loads first. -/
def step [Inhabited T] (q : AtomicQueueB2 T) (k : Pc T) (choice : Bool) :
    Option (AtomicQueueB2 T × (Pc T ⊕ Res T)) :=
  match k with
  | .tryPush pc => some (q.tryPush choice pc)
  | .push element => some (q.push element)
  | .doPush trying pc => (q.doPush choice pc).map fun p =>
      (p.1, match p.2 with
        | some pc' => .inl (.doPush trying pc')
        | none => .inr (if trying then .bool true else .unit))
  | .tryPop pc => some (q.tryPop choice pc)
  | .pop => some q.pop
  | .doPop trying pc => (q.doPop choice pc).map fun p =>
      (p.1, p.2.map (.doPop trying) fun x => if trying then .popped (some x) else .elem x)
  | .query what pc =>
    some (q, (q.loadTickets choice pc).map (.query what) fun n => answer q.size n what)

/-- Threads that push and pop as they like. -/
def threads [Inhabited T] (τ : Type) (q : AtomicQueueB2 T) :
    Impl (AtomicQueueB2 T) τ (Op T) (Res T) (Pc T) Bool where
  init := q
  call _ _ op := some (start op)
  step := step

/-! ### One thread at each end -/

/-- The thread that pushes, and the thread that pops. -/
inductive Side
  | pusher
  | popper
deriving DecidableEq, Repr

/-- A queue, and whether the popping thread has seen since its last pop that it is not empty. -/
structure Client (T : Type) where
  /-- The queue. -/
  queue : AtomicQueueB2 T
  /-- `was_empty` has returned `false`. -/
  nonempty : Bool

/-- The calls that the threads may make.  The popping thread calls `pop` only when it has seen
that the queue is not empty. -/
def call (s : Client T) : Side → Op T → Option (Side × Pc T)
  | .pusher, .tryPush x => some (.pusher, start (.tryPush x))
  | .pusher, .push x => some (.pusher, start (.push x))
  | .popper, .tryPop => some (.popper, start .tryPop)
  | .popper, .pop => if s.nonempty then some (.popper, start .pop) else none
  | t, .query what => some (t, start (.query what))
  | _, _ => none

/-- What the popping thread knows after a step. -/
def seen (nonempty : Bool) : Side → Pc T → Pc T ⊕ Res T → Bool
  | .popper, .tryPop _, _ => false
  | .popper, .pop, _ => false
  | .popper, .query .wasEmpty _, .inr (.bool b) => !b
  | _, _, _ => nonempty

/-- One thread pushes, and one pops. -/
def twoThreads [Inhabited T] (q : AtomicQueueB2 T) :
    Impl (Client T) Side (Op T) (Res T) (Side × Pc T) Bool where
  init := ⟨q, false⟩
  call := call
  step s k choice := (s.queue.step k.2 choice).map fun p =>
    (⟨p.1, seen s.nonempty k.1 k.2 p.2⟩, p.2.map (Prod.mk k.1) id)

end AtomicQueueB2

/-! ### The queue of elements -/

open AtomicQueueB2 in
/-- A first-in first-out queue, as one thread after the other would use it.  A `try_push` needs
room for its element, a `push` does not, and a `pop` waits for an element. -/
def elementFifo (T : Type) (capacity : ℕ) : Object (List T) (Op T) (Res T) Unit where
  init := []
  apply xs op _ := match xs, op with
    | xs, .tryPush x =>
      if xs.length < capacity then some (xs ++ [x], .bool true) else some (xs, .kept x)
    | xs, .push x => some (xs ++ [x], .unit)
    | [], .tryPop => some ([], .popped none)
    | x :: xs, .tryPop => some (xs, .popped (some x))
    | [], .pop => none
    | x :: xs, .pop => some (xs, .elem x)
    | xs, .query .wasSize => some (xs, .nat xs.length)
    | xs, .query .wasEmpty => some (xs, .bool xs.isEmpty)
    | xs, .query .wasFull => some (xs, .bool (capacity ≤ xs.length))

end EventManager
