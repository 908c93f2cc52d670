import EventManager.Lib.Linearize
import EventManager.Lib.Slots

/-!
# SPSCQueue

The queue of `SPSCQueue/include/rigtorp/SPSCQueue.h`, from which the managers of app11 and
app12 take their `txQueue`: a ring of slots between `readIdx_` and `writeIdx_`.  One slot of
the ring stays raw, so that a full ring and an empty one have different indices.  Each side
keeps a copy of the other side's index, and loads the index again only when the copy does not
let it go on.

One thread calls `emplace` and `try_emplace`, another one `front` and `pop`; the loads and
stores of the indices and the accesses to the slots are the steps.  They are taken as
sequentially consistent, although the code asks for no more than acquire, release and relaxed.
An access to a slot that does not hold what it should has no result.
-/

namespace EventManager

open Steps

/-- The members of the queue. -/
structure SPSCQueue (T : Type) where
  /-- `capacity_`, the length of the ring. -/
  capacity : ℕ
  /-- `kPadding`, the unused slots before and after the ring. -/
  kPadding : ℕ
  /-- `slots_`. -/
  slots : Slots T
  /-- `writeIdx_`. -/
  writeIdx : ℕ
  /-- `readIdxCache_`. -/
  readIdxCache : ℕ
  /-- `readIdx_`. -/
  readIdx : ℕ
  /-- `writeIdxCache_`. -/
  writeIdxCache : ℕ

/-- The step that a call of `emplace` or of `try_emplace` takes next. -/
inductive SPSCQueue.EmplacePc (T : Type)
  /-- `writeIdx_.load()`, and the first test. -/
  | load (args : T)
  /-- `readIdxCache_ = readIdx_.load()`, and the second test. -/
  | refresh (args : T) (writeIdx nextWriteIdx : ℕ)
  /-- `new (&slots_[writeIdx + kPadding]) T(args)`. -/
  | construct (args : T) (writeIdx nextWriteIdx : ℕ)
  /-- `writeIdx_.store(nextWriteIdx)`. -/
  | store (nextWriteIdx : ℕ)
deriving DecidableEq, Repr

/-- The step that a call of `front` takes next. -/
inductive SPSCQueue.FrontPc
  /-- `readIdx_.load()`, and the first test. -/
  | load
  /-- `writeIdxCache_ = writeIdx_.load()`, and the second test. -/
  | refresh (readIdx : ℕ)
deriving DecidableEq, Repr

/-- The step that a call of `pop` takes next. -/
inductive SPSCQueue.PopPc
  /-- `readIdx_.load()`. -/
  | load
  /-- `assert(writeIdx_.load() != readIdx)`. -/
  | check (readIdx : ℕ)
  /-- `slots_[readIdx + kPadding].~T()`. -/
  | destroy (readIdx : ℕ)
  /-- `readIdx_.store(nextReadIdx)`. -/
  | store (nextReadIdx : ℕ)
deriving DecidableEq, Repr

/-- The step that a call of `size` or of `empty` takes next: both load the two indices, and it
is not specified which of them first. -/
inductive SPSCQueue.IndexPc
  | start
  /-- `writeIdx_` has been loaded. -/
  | write (writeIdx : ℕ)
  /-- `readIdx_` has been loaded. -/
  | read (readIdx : ℕ)
deriving DecidableEq, Repr

namespace SPSCQueue

variable {T : Type}

/-! ### The constructor -/

/-- `SIZE_MAX`. -/
def sizeMax : ℕ := 2 ^ 64 - 1

/-- `PTRDIFF_MAX`. -/
def ptrdiffMax : ℕ := 2 ^ 63 - 1

/-- `kCacheLineSize`. -/
def kCacheLineSize : ℕ := 64

/-- The constant `kPadding`, for elements of `sizeofT` bytes. -/
def padding (sizeofT : ℕ) : ℕ := (kCacheLineSize - 1) / sizeofT + 1

/-- What the constructor makes of its argument `capacity`. -/
def ringLength (kPadding capacity : ℕ) : ℕ :=
  let capacity := if capacity < 1 then 1 else capacity
  let capacity := (capacity + 1) % 2 ^ 64
  if capacity > sizeMax - 2 * kPadding then sizeMax - 2 * kPadding else capacity

/-- The constructor, `none` when it throws: the allocator has no more than `PTRDIFF_MAX`
bytes. -/
def create (T : Type) (sizeofT capacity : ℕ) : Option (SPSCQueue T) :=
  let kPadding := padding sizeofT
  let capacity := ringLength kPadding capacity
  if capacity + 2 * kPadding ≤ ptrdiffMax / sizeofT then
    some ⟨capacity, kPadding, .raw (capacity + 2 * kPadding), 0, 0, 0, 0⟩
  else none

/-! ### The operations -/

/-- The index after `i`. -/
def nextIdx (q : SPSCQueue T) (i : ℕ) : ℕ :=
  if (i + 1) % 2 ^ 64 = q.capacity then 0 else (i + 1) % 2 ^ 64

/-- One step of `emplace`, which waits for a free slot, or of `try_emplace`, which does not:
where it goes on, or what it returns. -/
def emplaceWith (wait : Bool) (q : SPSCQueue T) :
    EmplacePc T → Option (SPSCQueue T × (EmplacePc T ⊕ Bool))
  | .load args =>
    some (q, .inl (if q.nextIdx q.writeIdx = q.readIdxCache then
      .refresh args q.writeIdx (q.nextIdx q.writeIdx)
      else .construct args q.writeIdx (q.nextIdx q.writeIdx)))
  | .refresh args writeIdx nextWriteIdx =>
    some ({ q with readIdxCache := q.readIdx },
      if nextWriteIdx ≠ q.readIdx then .inl (.construct args writeIdx nextWriteIdx)
      else if wait then .inl (.refresh args writeIdx nextWriteIdx)
      else .inr false)
  | .construct args writeIdx nextWriteIdx =>
    (q.slots.construct (writeIdx + q.kPadding) args).map fun slots =>
      ({ q with slots := slots }, .inl (.store nextWriteIdx))
  | .store nextWriteIdx => some ({ q with writeIdx := nextWriteIdx }, .inr true)

/-- One step of `try_emplace`. -/
def tryEmplace (q : SPSCQueue T) : EmplacePc T → Option (SPSCQueue T × (EmplacePc T ⊕ Bool)) :=
  q.emplaceWith false

/-- One step of `emplace`. -/
def emplace (q : SPSCQueue T) : EmplacePc T → Option (SPSCQueue T × (EmplacePc T ⊕ Bool)) :=
  q.emplaceWith true

/-- One step of `front`: where it goes on, or the slot that it returns a pointer to. -/
def front (q : SPSCQueue T) : FrontPc → SPSCQueue T × (FrontPc ⊕ Option ℕ)
  | .load =>
    (q, if q.readIdx = q.writeIdxCache then .inl (.refresh q.readIdx)
      else .inr (some (q.readIdx + q.kPadding)))
  | .refresh readIdx =>
    ({ q with writeIdxCache := q.writeIdx },
      .inr (if q.writeIdx = readIdx then none else some (readIdx + q.kPadding)))

/-- One step of `pop`, and the step after it. -/
def pop (q : SPSCQueue T) : PopPc → Option (SPSCQueue T × Option PopPc)
  | .load => some (q, some (.check q.readIdx))
  | .check readIdx => if q.writeIdx ≠ readIdx then some (q, some (.destroy readIdx)) else none
  | .destroy readIdx =>
    (q.slots.destroy (readIdx + q.kPadding)).map fun slots =>
      ({ q with slots := slots }, some (.store (q.nextIdx readIdx)))
  | .store nextReadIdx => some ({ q with readIdx := nextReadIdx }, none)

/-- `std::move(*p)` for a pointer `p` to a slot: the element, and the queue with what is left
of it in the slot. -/
def moveFrom [Inhabited T] (q : SPSCQueue T) (p : ℕ) : Option (SPSCQueue T × T) :=
  (q.slots.cell p).bind fun x => (q.slots.assign p default).map fun slots =>
    ({ q with slots := slots }, x)

/-- One step of `size` or of `empty`: where it goes on, or the indices `writeIdx_` and
`readIdx_` that it has loaded. -/
def loadIndices (writeFirst : Bool) (q : SPSCQueue T) : IndexPc → IndexPc ⊕ (ℕ × ℕ)
  | .start => .inl (if writeFirst then .write q.writeIdx else .read q.readIdx)
  | .write writeIdx => .inr (writeIdx, q.readIdx)
  | .read readIdx => .inr (q.writeIdx, readIdx)

/-- What `size` returns for the indices that it has loaded.  The difference is an unsigned
number that is read as a signed one. -/
def size (capacity writeIdx readIdx : ℕ) : ℕ :=
  let diff : ℤ := Int.bmod (writeIdx - readIdx) (2 ^ 64)
  let diff := if diff < 0 then Int.bmod (diff + capacity) (2 ^ 64) else diff
  (diff % 2 ^ 64).toNat

/-- What `empty` returns for the indices that it has loaded. -/
def empty (writeIdx readIdx : ℕ) : Bool := writeIdx = readIdx

/-! ### The two threads -/

/-- The thread that puts elements in, and the thread that takes them out. -/
inductive Side
  | producer
  | consumer
deriving DecidableEq, Repr

/-- What a thread asks about both indices. -/
inductive Query
  | size
  | empty
deriving DecidableEq, Repr

/-- The operations of the threads. -/
inductive Op (T : Type)
  /-- `emplace(args)`, or `try_emplace(args)`. -/
  | emplace (wait : Bool) (args : T)
  | front
  /-- `std::move(*p)` for the pointer `p` that `front` has returned. -/
  | move
  | pop
  | query (what : Query)
deriving DecidableEq, Repr

/-- The results of the operations. -/
inductive Res (T : Type)
  | unit
  | bool (b : Bool)
  | nat (n : ℕ)
  | elem (x : T)
deriving DecidableEq, Repr

/-- The step of a thread. -/
inductive Pc (T : Type)
  | emplace (wait : Bool) (pc : EmplacePc T)
  | front (pc : FrontPc)
  | move
  | pop (pc : PopPc)
  | query (what : Query) (pc : IndexPc)
deriving DecidableEq, Repr

/-- A queue, and the pointer that the consuming thread has. -/
structure Client (T : Type) where
  /-- The queue. -/
  queue : SPSCQueue T
  /-- What `front` has returned since the last `pop`, if it was not null. -/
  pointer : Option ℕ

/-- What `emplace` and `try_emplace` return to the thread. -/
def emplaced (wait b : Bool) : Res T := if wait then .unit else .bool b

/-- The answer to a query, for the indices that have been loaded. -/
def answer (capacity : ℕ) (p : ℕ × ℕ) : Query → Res T
  | .size => .nat (size capacity p.1 p.2)
  | .empty => .bool (empty p.1 p.2)

/-- The calls that the threads may make.  The element that `front` points to may be moved from
and popped, when there is one. -/
def call (s : Client T) : Side → Op T → Option (Pc T)
  | .producer, .emplace wait args => some (.emplace wait (.load args))
  | .consumer, .front => some (.front .load)
  | .consumer, .move => if s.pointer.isSome then some .move else none
  | .consumer, .pop => if s.pointer.isSome then some (.pop .load) else none
  | _, .query what => some (.query what .start)
  | _, _ => none

variable [Inhabited T]

/-- One step of a call.  The choice is the order in which `size` and `empty` load the
indices. -/
def step (s : Client T) (k : Pc T) (writeFirst : Bool) : Option (Client T × (Pc T ⊕ Res T)) :=
  match k with
  | .emplace wait pc => (s.queue.emplaceWith wait pc).map fun p =>
      ({ s with queue := p.1 }, p.2.map (Pc.emplace wait) (emplaced wait))
  | .front pc =>
    match (s.queue.front pc).2 with
    | .inl pc' => some ({ s with queue := (s.queue.front pc).1 }, .inl (.front pc'))
    | .inr p => some (⟨(s.queue.front pc).1, p⟩, .inr (.bool p.isSome))
  | .move => s.pointer.bind fun p => (s.queue.moveFrom p).map fun r =>
      ({ s with queue := r.1 }, .inr (.elem r.2))
  | .pop pc => (s.queue.pop pc).map fun p =>
      match p.2 with
      | some pc' => ({ s with queue := p.1 }, .inl (.pop pc'))
      | none => (⟨p.1, none⟩, .inr .unit)
  | .query what pc =>
    match s.queue.loadIndices writeFirst pc with
    | .inl pc' => some (s, .inl (.query what pc'))
    | .inr p => some (s, .inr (answer s.queue.capacity p what))

/-- The new queue `q` and the two threads. -/
def threads (q : SPSCQueue T) : Impl (Client T) Side (Op T) (Res T) (Pc T) Bool where
  init := ⟨q, none⟩
  call := call
  step := step

end SPSCQueue

/-! ### The bounded queue -/

open SPSCQueue in
/-- A first-in first-out queue for `capacity` elements, as one thread after the other would
use it.  An `emplace` waits while the queue is full. -/
def boundedFifo (T : Type) [Inhabited T] (capacity : ℕ) :
    Object (List T) (Op T) (Res T) Unit where
  init := []
  apply xs op _ := match xs, op with
    | xs, .emplace wait args =>
      if xs.length < capacity then some (xs ++ [args], emplaced wait true)
      else if wait then none
      else some (xs, .bool false)
    | xs, .front => some (xs, .bool (!xs.isEmpty))
    | x :: xs, .move => some (default :: xs, .elem x)
    | _ :: xs, .pop => some (xs, .unit)
    | xs, .query .size => some (xs, .nat xs.length)
    | xs, .query .empty => some (xs, .bool xs.isEmpty)
    | [], _ => none

end EventManager
