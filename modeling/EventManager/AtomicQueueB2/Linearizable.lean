import EventManager.AtomicQueueB2.Invariant

/-!
# The AtomicQueueB2 with one thread at each end is a queue

app10 pushes from the thread of the manager and pops from the thread that polls, which looks
whether the queue is empty before each `pop`.  Every history of two such threads is a history of
a first-in first-out queue.  A push takes effect when it takes its ticket, and so does a pop;
`try_push` fails and `was_size` and the like take effect when they load the ticket of the other
side.

This needs a size that an `int` can hold; with a size of 2³¹ no `try_push` succeeds
(`linearizable_elementFifo_iff`).
-/

namespace EventManager.AtomicQueueB2

open Steps Impl

variable {T : Type}

/-! ### The queue of elements, operation by operation -/

@[simp] lemma elementFifo_tryPush (n : ℕ) (xs : List T) (x : T) :
    (elementFifo T n).apply xs (.tryPush x) () =
      if xs.length < n then some (xs ++ [x], .bool true) else some (xs, .kept x) := by
  cases xs <;> rfl

@[simp] lemma elementFifo_push (n : ℕ) (xs : List T) (x : T) :
    (elementFifo T n).apply xs (.push x) () = some (xs ++ [x], .unit) := by
  cases xs <;> rfl

lemma elementFifo_pop {n : ℕ} {xs xs' : List T} {res : Res T}
    (h : (elementFifo T n).apply xs .pop () = some (xs', res)) :
    ∃ x, xs = x :: xs' ∧ res = .elem x := by
  cases xs with
  | nil => cases h
  | cons x rest =>
    cases h
    exact ⟨x, rfl, rfl⟩

lemma elementFifo_query (n : ℕ) (xs : List T) (what : Query) :
    (elementFifo T n).apply xs (.query what) () = some (xs, match what with
      | .wasSize => .nat xs.length
      | .wasEmpty => .bool xs.isEmpty
      | .wasFull => .bool (n ≤ xs.length)) := by
  cases xs <;> cases what <;> rfl

/-! ### The threads -/

/-- The push that tries, or the one that does not. -/
def pushOp (trying : Bool) (x : T) : Op T := if trying then .tryPush x else .push x

/-- The pop that tries, or the one that does not. -/
def popOp (trying : Bool) : Op T := if trying then .tryPop else .pop

/-- What `try_push` and `push` return when the element is in the queue. -/
def pushResult (trying : Bool) : Res T := if trying then .bool true else .unit

/-- What `try_pop` and `pop` return with an element. -/
def popResult (trying : Bool) (x : T) : Res T := if trying then .popped (some x) else .elem x

/-- The call of a thread, its next step, and its result if it has taken effect. -/
abbrev Call (T : Type) : Type := Option (Op T × (Side × Pc T) × Option (Res T))

/-- Where the pushing thread may be, when the queue holds `len` elements; what it has yet to
publish, and the condition of the slot that it has claimed. -/
inductive Pushing (n len : ℕ) (q : AtomicQueueB2 T) :
    Call T → List T → List (State × T) → Prop
  | idle : Pushing n len q none [] []
  | loadHead (x : T) :
      Pushing n len q (some (.tryPush x, (.pusher, .tryPush (.loadHead x)), none)) [] []
  | loadTail (x : T) :
      Pushing n len q (some (.tryPush x, (.pusher, .tryPush (.loadTail x q.head)), none)) [] []
  | exchange (x : T) (h : len < n) :
      Pushing n len q (some (.tryPush x, (.pusher, .tryPush (.exchange x q.head)), none)) [] []
  | fetchAdd (x : T) : Pushing n len q (some (.push x, (.pusher, .push x), none)) [] []
  | claim (trying : Bool) (x : T) (h : trying = true → len ≤ n) :
      Pushing n len q (some (pushOp trying x, (.pusher,
        .doPush trying (.claim x (q.index (q.head - 1)))), some (pushResult trying))) [x] []
  | spin (trying : Bool) (x : T) (h : trying = true → len ≤ n) :
      Pushing n len q (some (pushOp trying x, (.pusher,
        .doPush trying (.spin x (q.index (q.head - 1)))), some (pushResult trying))) [x] []
  | write (trying : Bool) (x z : T) :
      Pushing n len q (some (pushOp trying x, (.pusher,
        .doPush trying (.write x (q.index (q.head - 1)))), some (pushResult trying))) [x] [(.storing, z)]
  | publish (trying : Bool) (x : T) :
      Pushing n len q (some (pushOp trying x, (.pusher,
        .doPush trying (.publish (q.index (q.head - 1)))), some (pushResult trying))) [x] [(.storing, x)]
  | start (what : Query) :
      Pushing n len q (some (.query what, (.pusher, .query what .start), none)) [] []
  | head (what : Query) :
      Pushing n len q (some (.query what, (.pusher, .query what (.head q.head)), none)) [] []
  | tail (what : Query) (tail : BitVec 32) :
      Pushing n len q (some (.query what, (.pusher, .query what (.tail tail)),
        some (answer q.size (q.head - tail) what))) [] []

/-- Where the popping thread may be, when the queue holds `xs`; what it has taken, what it has
claimed, and the condition of the slot that it has claimed. -/
inductive Popping [Inhabited T] (xs : List T) (q : AtomicQueueB2 T) :
    Call T → List T → List T → List (State × T) → Prop
  | idle : Popping xs q none [] [] []
  | loadTail : Popping xs q (some (.tryPop, (.popper, .tryPop .loadTail), none)) [] [] []
  | loadHead :
      Popping xs q (some (.tryPop, (.popper, .tryPop (.loadHead q.tail)), none)) [] [] []
  | exchange (h : xs ≠ []) :
      Popping xs q (some (.tryPop, (.popper, .tryPop (.exchange q.tail)), none)) [] [] []
  | fetchAdd (h : xs ≠ []) : Popping xs q (some (.pop, (.popper, .pop), none)) [] [] []
  | claim (trying : Bool) (y : T) :
      Popping xs q (some (popOp trying, (.popper, .doPop trying (.claim (q.index (q.tail - 1)))),
        some (popResult trying y))) [y] [] []
  | spin (trying : Bool) (y : T) :
      Popping xs q (some (popOp trying, (.popper, .doPop trying (.spin (q.index (q.tail - 1)))),
        some (popResult trying y))) [y] [] []
  | read (trying : Bool) (y : T) :
      Popping xs q (some (popOp trying, (.popper, .doPop trying (.read (q.index (q.tail - 1)))),
        some (popResult trying y))) [y] [y] [(.loading, y)]
  | release (trying : Bool) (y : T) :
      Popping xs q (some (popOp trying, (.popper,
        .doPop trying (.release (q.index (q.tail - 1)) y)), some (popResult trying y))) [y] [y] [(.loading, default)]
  | start (what : Query) :
      Popping xs q (some (.query what, (.popper, .query what .start), none)) [] [] []
  | tail (what : Query) :
      Popping xs q (some (.query what, (.popper, .query what (.tail q.tail)), none)) [] [] []
  | head (what : Query) (head : BitVec 32) (h : wasSize (head - q.tail) ≠ 0 → xs ≠ []) :
      Popping xs q (some (.query what, (.popper, .query what (.head head)),
        some (answer q.size (head - q.tail) what))) [] [] []

variable {n len len' : ℕ} {q q' : AtomicQueueB2 T} {p c : Call T}
  {taken claimed rest pending xs xs' : List T} {front last : List (State × T)}

lemma Pushing.congr (h : Pushing n len q p pending last) (hhead : q'.head = q.head)
    (hsize : q'.size = q.size) (hlen : len' ≤ len) : Pushing n len' q' p pending last := by
  obtain ⟨head', tail', size', states', elements'⟩ := q'
  obtain rfl : head' = q.head := hhead
  obtain rfl : size' = q.size := hsize
  cases h <;> constructor
  · omega
  · exact fun htry => hlen.trans (‹_ = true → len ≤ n› htry)
  · exact fun htry => hlen.trans (‹_ = true → len ≤ n› htry)

/-- The slot that the pushing thread has claimed is not ready. -/
lemma Pushing.last_storing (h : Pushing n len q p pending last) :
    ∀ e ∈ last, e.1 = .storing := by
  cases h <;> simp

/-- A push that has yet to publish its element is in `do_push`. -/
lemma Pushing.exists_doPush (h : Pushing n len q p pending last) (hne : pending ≠ []) :
    ∃ op u trying pc d, p = some (op, (u, .doPush trying pc), d) := by
  cases h with
  | claim trying x hlen => exact ⟨_, _, _, _, _, rfl⟩
  | spin trying x hlen => exact ⟨_, _, _, _, _, rfl⟩
  | write trying x z => exact ⟨_, _, _, _, _, rfl⟩
  | publish trying x => exact ⟨_, _, _, _, _, rfl⟩
  | _ => exact absurd rfl hne

lemma RingInv.answer_eq (h : RingInv n q taken claimed rest pending front last xs)
    (what : Query) :
    (elementFifo T n).apply xs (.query what) () =
      some (xs, answer q.size (q.head - q.tail) what) := by
  have hlen := h.length_le
  have hn := h.le
  have hint := h.toInt_head_sub_tail
  have hnat : (BitVec.ofNat 32 xs.length).toNat = xs.length := by
    rw [BitVec.toNat_ofNat, Nat.mod_eq_of_lt (by omega)]
  have hsize : wasSize (q.head - q.tail) = BitVec.ofNat 32 xs.length := by
    rw [wasSize, if_neg (by omega), h.head_sub_tail]
  rw [elementFifo_query, answer.eq_def, hsize]
  cases what with
  | wasSize => simp only [hnat]
  | wasEmpty =>
    have hiff : BitVec.ofNat 32 xs.length = 0 ↔ xs = [] := by
      rw [← BitVec.toNat_inj, hnat]
      exact List.length_eq_zero_iff
    have hempty : xs.isEmpty = decide (BitVec.ofNat 32 xs.length = 0) := by
      rw [Bool.eq_iff_iff, List.isEmpty_iff, decide_eq_true_iff, hiff]
    simp only [hempty]
  | wasFull => simp only [BitVec.le_def, hnat, h.size]

lemma RingInv.ne_nil_of_wasSize (h : RingInv n q taken claimed rest pending front last xs)
    (hne : wasSize (q.head - q.tail) ≠ 0) : xs ≠ [] := by
  rintro rfl
  refine hne ?_
  rw [h.head_sub_tail]
  rfl

variable [Inhabited T]

lemma Popping.congr (h : Popping xs q c taken claimed front) (htail : q'.tail = q.tail)
    (hsize : q'.size = q.size) (hxs : xs ≠ [] → xs' ≠ []) :
    Popping xs' q' c taken claimed front := by
  obtain ⟨head', tail', size', states', elements'⟩ := q'
  obtain rfl : tail' = q.tail := htail
  obtain rfl : size' = q.size := hsize
  cases h <;> constructor
  · exact hxs ‹_›
  · exact hxs ‹_›
  · intro hne
    exact hxs (‹wasSize _ ≠ 0 → xs ≠ []› hne)

/-! ### Steps -/

/-- The queue holds `xs`, and the threads are where `p` and `c` say. -/
structure Inv (n : ℕ) (s : Client T) (p c : Call T) (xs : List T) : Prop where
  nonempty : s.nonempty → xs ≠ []
  ring : ∃ taken claimed rest pending front last, Pushing n xs.length s.queue p pending last ∧
    Popping xs s.queue c taken claimed front ∧
    RingInv n s.queue taken claimed rest pending front last xs

namespace Inv

variable {s : Client T} {op : Op T} {t : Side} {k : Pc T} {d : Option (Res T)} {choice : Bool}
  {r : Pc T ⊕ Res T}

lemma side_pusher (h : Inv n s (some (op, (t, k), d)) c xs) : t = .pusher := by
  obtain ⟨-, _, _, _, _, _, _, hpush, -, -⟩ := h
  cases hpush <;> rfl

lemma side_popper (h : Inv n s p (some (op, (t, k), d)) xs) : t = .popper := by
  obtain ⟨-, _, _, _, _, _, _, -, hpop, -⟩ := h
  cases hpop <;> rfl

omit [Inhabited T] in
lemma seen_pusher (nonempty : Bool) : seen nonempty .pusher k r = nonempty := by
  simp [seen]

lemma of_pusher (hnon : s.nonempty → xs ≠ []) (hpop : Popping xs s.queue c taken claimed front)
    {p' : Call T} (hpush : Pushing n xs'.length q' p' pending last)
    (hring : RingInv n q' taken claimed rest pending front last xs')
    (htail : q'.tail = s.queue.tail) (hsize : q'.size = s.queue.size)
    (hxs : xs ≠ [] → xs' ≠ []) : Inv n ⟨q', s.nonempty⟩ p' c xs' where
  nonempty h := hxs (hnon h)
  ring := ⟨taken, claimed, rest, pending, front, last, hpush, hpop.congr htail hsize hxs, hring⟩

lemma of_popper {nonempty : Bool} (hnon : nonempty → xs' ≠ [])
    (hpush : Pushing n xs.length s.queue p pending last)
    {c' : Call T} (hpop : Popping xs' q' c' taken claimed front)
    (hring : RingInv n q' taken claimed rest pending front last xs')
    (hhead : q'.head = s.queue.head) (hsize : q'.size = s.queue.size)
    (hxs : xs'.length ≤ xs.length) : Inv n ⟨q', nonempty⟩ p c' xs' where
  nonempty := hnon
  ring := ⟨taken, claimed, rest, pending, front, last, hpush.congr hhead hsize hxs, hpop, hring⟩

lemma step_pusher (h : Inv n s (some (op, (t, k), d)) c xs)
    (hs : step s.queue k choice = some (q', r)) :
    ∃ xs' d', (elementFifo T n).Taken xs op d xs' d' ∧ (∀ res, r = .inr res → d' = some res) ∧
      Inv n ⟨q', s.nonempty⟩ (r.getLeft?.map fun k' => (op, (t, k'), d')) c xs' := by
  obtain ⟨hnon, taken, claimed, rest, pending, front, last, hpush, hpop, hring⟩ := h
  cases hpush with
  | loadHead x =>
    cases hs
    exact ⟨xs, none, .stay none, by simp, of_pusher hnon hpop (.loadTail x) hring rfl rfl id⟩
  | loadTail x =>
    simp only [step, tryPush, hring.toInt_size, hring.toInt_head_sub_tail] at hs
    by_cases hfull : n ≤ xs.length
    · rw [if_pos (by exact_mod_cast hfull)] at hs
      cases hs
      refine ⟨xs, some (.kept x), .effect () ?_, by simp, of_pusher hnon hpop .idle hring rfl rfl id⟩
      rw [elementFifo_tryPush, if_neg (by omega)]
    · rw [if_neg (by exact_mod_cast hfull)] at hs
      cases hs
      exact ⟨xs, none, .stay none, by simp,
        of_pusher hnon hpop (.exchange x (by omega)) hring rfl rfl id⟩
  | exchange x hroom =>
    simp only [step, tryPush, true_and] at hs
    split at hs
    · cases hs
      refine ⟨xs ++ [x], some (.bool true), .effect () ?_, by simp, ?_⟩
      · rw [elementFifo_tryPush, if_pos hroom]
      · refine of_pusher hnon hpop ?_ (hring.pushTicket x) rfl rfl (by simp)
        have hclaim : Pushing n (xs ++ [x]).length { s.queue with head := s.queue.head + 1 } _ _ _ :=
          .claim true x fun _ => by simp; omega
        rwa [show s.queue.head + 1 - 1 = s.queue.head from BitVec.add_sub_cancel ..] at hclaim
    · cases hs
      exact ⟨xs, none, .stay none, by simp, of_pusher hnon hpop (.loadTail x) hring rfl rfl id⟩
  | fetchAdd x =>
    cases hs
    refine ⟨xs ++ [x], some .unit, .effect () (elementFifo_push ..), by simp, ?_⟩
    refine of_pusher hnon hpop ?_ (hring.pushTicket x) rfl rfl (by simp)
    have hclaim : Pushing n (xs ++ [x]).length { s.queue with head := s.queue.head + 1 } _ _ _ :=
      .claim false x (by simp)
    rwa [show s.queue.head + 1 - 1 = s.queue.head from BitVec.add_sub_cancel ..] at hclaim
  | claim trying x hlen =>
    simp only [step, doPush, if_pos (hring.index_lt _)] at hs
    by_cases hempty : s.queue.states (s.queue.index (s.queue.head - 1)) = .empty ∧ choice = false
    · rw [if_pos hempty] at hs
      cases hs
      exact ⟨xs, _, .stay _, by simp, of_pusher hnon hpop
        (.write (q := { s.queue with states := _ }) trying x _) (hring.pushClaim hempty.1)
        rfl rfl id⟩
    · rw [if_neg hempty] at hs
      cases hs
      exact ⟨xs, _, .stay _, by simp, of_pusher hnon hpop (.spin trying x hlen) hring rfl rfl id⟩
  | spin trying x hlen =>
    simp only [step, doPush, if_pos (hring.index_lt _)] at hs
    cases hs
    refine ⟨xs, _, .stay _, by simp, of_pusher hnon hpop ?_ hring rfl rfl id⟩
    show Pushing n _ _ (some (pushOp trying x, (_, .doPush trying (if _ then _ else _)), _)) _ _
    split
    · exact .spin trying x hlen
    · exact .claim trying x hlen
  | write trying x z =>
    simp only [step, doPush, if_pos (hring.index_lt _)] at hs
    cases hs
    exact ⟨xs, _, .stay _, by simp, of_pusher hnon hpop
      (.publish (q := { s.queue with elements := _ }) trying x) (hring.pushWrite x) rfl rfl id⟩
  | publish trying x =>
    simp only [step, doPush, if_pos (hring.index_lt _)] at hs
    cases hs
    exact ⟨xs, _, .stay _, by simp [pushResult], of_pusher hnon hpop .idle hring.publish rfl rfl
      id⟩
  | start what =>
    cases hs
    cases choice with
    | true =>
      exact ⟨xs, none, .stay none, by simp [loadTickets],
        of_pusher hnon hpop (.head what) hring rfl rfl id⟩
    | false =>
      -- the answer is settled by the ticket of the other side
      exact ⟨xs, _, .effect () (hring.answer_eq what), by simp [loadTickets],
        of_pusher hnon hpop (.tail what s.queue.tail) hring rfl rfl id⟩
  | head what =>
    cases hs
    exact ⟨xs, _, .effect () (hring.answer_eq what), by simp [loadTickets],
      of_pusher hnon hpop .idle hring rfl rfl id⟩
  | tail what tail =>
    cases hs
    exact ⟨xs, _, .stay _, by simp [loadTickets], of_pusher hnon hpop .idle hring rfl rfl id⟩

omit [Inhabited T] in
lemma seen_query {nonempty : Bool} (hnon : nonempty → xs ≠ []) {size m : BitVec 32}
    (hm : wasSize m ≠ 0 → xs ≠ []) {what : Query} {pc : SizePc} :
    seen nonempty .popper (.query what pc : Pc T) (.inr (answer size m what)) → xs ≠ [] := by
  cases what with
  | wasEmpty => simpa [seen, answer] using hm
  | wasSize => exact hnon
  | wasFull => exact hnon

lemma step_popper (h : Inv n s p (some (op, (t, k), d)) xs)
    (hs : step s.queue k choice = some (q', r)) :
    ∃ xs' d', (elementFifo T n).Taken xs op d xs' d' ∧ (∀ res, r = .inr res → d' = some res) ∧
      Inv n ⟨q', seen s.nonempty t k r⟩ p (r.getLeft?.map fun k' => (op, (t, k'), d')) xs' := by
  obtain ⟨hnon, taken, claimed, rest, pending, front, last, hpush, hpop, hring⟩ := h
  cases hpop with
  | loadTail =>
    cases hs
    exact ⟨xs, none, .stay none, by simp,
      of_popper (by simp [seen]) hpush .loadHead hring rfl rfl le_rfl⟩
  | loadHead =>
    simp only [step, tryPop, hring.toInt_head_sub_tail] at hs
    by_cases hnil : xs = []
    · subst hnil
      cases hs
      exact ⟨[], some (.popped none), .effect () rfl, by simp,
        of_popper (by simp [seen]) hpush .idle hring rfl rfl le_rfl⟩
    · have hpos := List.length_pos_iff.mpr hnil
      rw [if_neg (by omega)] at hs
      cases hs
      exact ⟨xs, none, .stay none, by simp,
        of_popper (by simp [seen]) hpush (.exchange hnil) hring rfl rfl le_rfl⟩
  | exchange hne =>
    obtain ⟨y, xs, rfl⟩ := List.exists_cons_of_ne_nil hne
    simp only [step, tryPop, true_and] at hs
    split at hs
    · cases hs
      refine ⟨xs, some (.popped (some y)), .effect () rfl, by simp, ?_⟩
      refine of_popper (by simp [seen]) hpush ?_ (hring.popTicket) rfl rfl (by simp)
      have hclaim : Popping xs { s.queue with tail := s.queue.tail + 1 } _ _ _ _ :=
        .claim true y
      rwa [show s.queue.tail + 1 - 1 = s.queue.tail from BitVec.add_sub_cancel ..] at hclaim
    · cases hs
      exact ⟨y :: xs, none, .stay none, by simp,
        of_popper (by simp [seen]) hpush .loadHead hring rfl rfl le_rfl⟩
  | fetchAdd hne =>
    obtain ⟨y, xs, rfl⟩ := List.exists_cons_of_ne_nil hne
    cases hs
    refine ⟨xs, some (.elem y), .effect () rfl, by simp, ?_⟩
    refine of_popper (by simp [seen]) hpush ?_ (hring.popTicket) rfl rfl (by simp)
    have hclaim : Popping xs { s.queue with tail := s.queue.tail + 1 } _ _ _ _ :=
      .claim false y
    rwa [show s.queue.tail + 1 - 1 = s.queue.tail from BitVec.add_sub_cancel ..] at hclaim
  | claim trying y =>
    simp only [step, doPop, if_pos (hring.index_lt _)] at hs
    by_cases hstored : s.queue.states (s.queue.index (s.queue.tail - 1)) = .stored ∧ choice = false
    · rw [if_pos hstored] at hs
      cases hs
      obtain ⟨rest', rfl, -, hring'⟩ := hring.popClaim hpush.last_storing hstored.1
      exact ⟨xs, _, .stay _, by simp, of_popper hnon hpush
        (.read (q := { s.queue with states := _ }) trying y) hring' rfl rfl le_rfl⟩
    · rw [if_neg hstored] at hs
      cases hs
      exact ⟨xs, _, .stay _, by simp,
        of_popper hnon hpush (.spin trying y) hring rfl rfl le_rfl⟩
  | spin trying y =>
    simp only [step, doPop, if_pos (hring.index_lt _)] at hs
    cases hs
    refine ⟨xs, _, .stay _, by simp, of_popper hnon hpush ?_ hring rfl rfl le_rfl⟩
    show Popping _ _ (some (popOp trying, (_, .doPop trying (if _ then _ else _)), _)) _ _ _
    split
    · exact .spin trying y
    · exact .claim trying y
  | read trying y =>
    simp only [step, doPop, if_pos (hring.index_lt _)] at hs
    cases hs
    have helement := hring.element_eq
    refine ⟨xs, _, .stay _, by simp, of_popper hnon hpush ?_ (hring.popRead default) rfl rfl le_rfl⟩
    rw [helement]
    exact .release (q := { s.queue with elements := _ }) trying y
  | release trying y =>
    simp only [step, doPop, if_pos (hring.index_lt _)] at hs
    cases hs
    exact ⟨xs, _, .stay _, by simp [popResult], of_popper hnon hpush .idle hring.popRelease rfl rfl
      le_rfl⟩
  | start what =>
    cases hs
    cases choice with
    | true =>
      -- the answer is settled by the ticket of the other side
      exact ⟨xs, _, .effect () (hring.answer_eq what), by simp [loadTickets],
        of_popper (by cases what <;> exact hnon) hpush
          (.head what s.queue.head hring.ne_nil_of_wasSize) hring rfl rfl le_rfl⟩
    | false =>
      exact ⟨xs, none, .stay none, by simp [loadTickets],
        of_popper (by cases what <;> exact hnon) hpush (.tail what) hring rfl rfl le_rfl⟩
  | tail what =>
    cases hs
    refine ⟨xs, _, .effect () (hring.answer_eq what), by simp [loadTickets],
      of_popper (seen_query hnon hring.ne_nil_of_wasSize) hpush .idle hring rfl rfl le_rfl⟩
  | head what head hne =>
    cases hs
    exact ⟨xs, _, .stay _, by simp [loadTickets],
      of_popper (seen_query hnon hne) hpush .idle hring rfl rfl le_rfl⟩

end Inv

/-! ### The constructor -/

variable {size : BitVec 32}

lemma size_create_le (h : ¬ (2 ^ 30 < size.toNat ∧ size.toNat ≤ 2 ^ 31)) :
    (create T size).size.toNat ≤ 2 ^ 30 := by
  rw [size_create]
  split
  · have hclog : Nat.clog 2 size.toNat ≤ 30 :=
      (Nat.clog_le_iff_le_pow (by omega)).mpr (by omega)
    exact max_le (by decide) (Nat.pow_le_pow_right (by omega) hclog)
  · decide

lemma inv_create (hsize : (create T size).size.toNat ≤ 2 ^ 30) :
    Inv (create T size).size.toNat ⟨create T size, false⟩ none none [] where
  nonempty := by simp
  ring := by
    refine ⟨[], [], [], [], [], [], .idle, .idle, ?_⟩
    obtain ⟨k, hk, -, hq⟩ := exists_size_create (T := T) size
    exact {
      exp := ⟨k, hk, (Nat.pow_le_pow_iff_right (by omega)).mp (hq ▸ hsize), hq⟩
      size := rfl
      head := rfl
      parts := rfl
      front_length := rfl
      room := Nat.zero_le _
      pending_length := Nat.zero_le _
      window := Ring.Window.raw _ _ }

/-- The invariant relates the queue to the queue of elements. -/
theorem refines (hsize : (create T size).size.toNat ≤ 2 ^ 30) :
    (twoThreads (create T size)).Refines (elementFifo T (create T size).size.toNat)
      fun s ph xs => Inv (create T size).size.toNat s (ph .pusher) (ph .popper) xs where
  init := inv_create hsize
  call {s ph xs t op k} hI ht hk := by
    obtain ⟨hnon, taken, claimed, rest, pending, front, last, hpush, hpop, hring⟩ := hI
    cases t with
    | pusher =>
      rw [ht] at hpush
      cases hpush
      simp only [Function.update_self, ne_eq, reduceCtorEq, not_false_eq_true,
        Function.update_of_ne]
      cases op <;> simp only [twoThreads, call] at hk <;> cases hk
      · exact .of_pusher hnon hpop (.loadHead _) hring rfl rfl id
      · exact .of_pusher hnon hpop (.fetchAdd _) hring rfl rfl id
      · exact .of_pusher hnon hpop (.start _) hring rfl rfl id
    | popper =>
      rw [ht] at hpop
      cases hpop
      simp only [Function.update_self, ne_eq, reduceCtorEq, not_false_eq_true,
        Function.update_of_ne]
      cases op with
      | tryPush x => cases hk
      | push x => cases hk
      | tryPop =>
        cases hk
        exact .of_popper hnon hpush .loadTail hring rfl rfl le_rfl
      | pop =>
        obtain ⟨hseen, hk⟩ := Option.ite_none_right_eq_some.mp hk
        cases hk
        exact .of_popper hnon hpush (.fetchAdd (hnon hseen)) hring rfl rfl le_rfl
      | query what =>
        cases hk
        exact .of_popper hnon hpush (.start what) hring rfl rfl le_rfl
  step {s ph xs t op k d choice s' r} hI ht hs := by
    obtain ⟨⟨q', r'⟩, hstep, heq⟩ := Option.map_eq_some_iff.mp hs
    cases heq
    obtain ⟨u, k⟩ := k
    cases t with
    | pusher =>
      rw [ht] at hI
      obtain rfl : u = .pusher := hI.side_pusher
      obtain ⟨xs', d', htaken, hret, hI'⟩ := hI.step_pusher hstep
      refine ⟨xs', d', htaken, fun res hres => hret res ?_, ?_⟩
      · cases r' <;> cases hres
        rfl
      · rw [Inv.seen_pusher]
        cases r' <;> simpa using hI'
    | popper =>
      rw [ht] at hI
      obtain rfl : u = .popper := hI.side_popper
      obtain ⟨xs', d', htaken, hret, hI'⟩ := hI.step_popper hstep
      refine ⟨xs', d', htaken, fun res hres => hret res ?_, ?_⟩
      · cases r' <;> cases hres
        rfl
      · cases r' <;> simpa using hI'

/-! ### The size that does not fit -/

omit [Inhabited T] in
/-- What the threads may have seen first of a queue of elements with room for one. -/
lemma elementFifo_first (hn : 0 < n) {a : Object.Atomic (List T) Side (Op T) (Res T)}
    (h : ((elementFifo T n).atomic Side).Reachable a) :
    (a.history = [] → a.value = [] ∧ ∀ t, a.calls t = none) ∧
    (∀ x, a.history = [.call .pusher (.tryPush x)] → a.calls .popper = none ∧
      (a.calls .pusher = some (.tryPush x, some (.bool true)) ∨
        a.value = [] ∧ a.calls .pusher = some (.tryPush x, none))) ∧
    ∀ x, a.history ≠ [.call .pusher (.tryPush x), .ret .pusher (.kept x)] := by
  refine h.invariant (I := fun a => (a.history = [] → a.value = [] ∧ ∀ t, a.calls t = none) ∧
    (∀ x, a.history = [.call .pusher (.tryPush x)] → a.calls .popper = none ∧
      (a.calls .pusher = some (.tryPush x, some (.bool true)) ∨
        a.value = [] ∧ a.calls .pusher = some (.tryPush x, none))) ∧
    ∀ x, a.history ≠ [.call .pusher (.tryPush x), .ret .pusher (.kept x)]) ?_ ?_
  · rintro a rfl
    exact ⟨fun _ => ⟨rfl, fun _ => rfl⟩, by simp, by simp⟩
  · rintro a act a' ⟨hnil, hone, htwo⟩ hs
    cases act with
    | call t op =>
      obtain ⟨hidle, rfl⟩ := Object.call_inv hs
      refine ⟨by simp, fun x hx => ?_, fun x hx => ?_⟩
      · obtain ⟨hh, hmark⟩ := List.append_eq_singleton_iff.mp hx |>.resolve_right (by simp)
        cases hmark
        obtain ⟨hvalue, hcalls⟩ := hnil hh
        simp [hvalue, hcalls]
      · obtain ⟨-, hmark⟩ := List.append_inj' (show _ ++ [_] = [_] ++ [_] from hx) rfl
        cases hmark
    | effect t =>
      obtain ⟨op, v, res, hcall, happly, rfl⟩ := Object.effect_inv hs
      refine ⟨fun hx => ?_, fun x hx => ?_, htwo⟩
      · simp [(hnil hx).2 t] at hcall
      · obtain ⟨hpopper, hpusher⟩ := hone x hx
        cases t with
        | popper => simp [hpopper] at hcall
        | pusher =>
          rcases hpusher with hpusher | ⟨hvalue, hpusher⟩
          · simp [hpusher] at hcall
          · rw [hpusher] at hcall
            cases hcall
            rw [hvalue, elementFifo_tryPush, List.length_nil, if_pos hn] at happly
            cases happly
            exact ⟨by simpa using hpopper, Or.inl (by simp)⟩
    | ret t =>
      obtain ⟨op, res, hcall, rfl⟩ := Object.ret_inv hs
      refine ⟨by simp, fun x hx => ?_, fun x hx => ?_⟩
      · obtain ⟨-, hmark⟩ := List.append_eq_singleton_iff.mp hx |>.resolve_right (by simp)
        cases hmark
      · obtain ⟨hh, hmark⟩ := List.append_inj' (show _ ++ [_] = [_] ++ [_] from hx) rfl
        cases hmark
        obtain ⟨-, hpusher | ⟨-, hpusher⟩⟩ := hone x hh
        · rw [hpusher] at hcall
          cases hcall
        · rw [hpusher] at hcall
          cases hcall

/-- With a size of 2³¹, which is negative for an `int`, `try_push` fails though the queue is
empty. -/
lemma not_linearizable (hsize : (create T size).size.toNat = 2 ^ 31) :
    ¬ (twoThreads (create T size)).Linearizable (elementFifo T (create T size).size.toNat) := by
  intro hlin
  have hneg : (create T size).size.toInt ≤ ((0 : BitVec 32) - 0).toInt := by
    rw [BitVec.toInt_eq_toNat_cond, hsize]
    decide
  have hcall : (twoThreads (create T size)).machine.Reachable ⟨⟨create T size, false⟩,
      Function.update (fun _ => none) .pusher
        (some (.tryPush default, (.pusher, .tryPush (.loadHead default)))),
      [.call .pusher (.tryPush default)]⟩ :=
    (Machine.Reachable.of_init rfl).next (a := .call .pusher (.tryPush default)) rfl
  have hload : (twoThreads (create T size)).machine.Reachable ⟨⟨create T size, false⟩,
      Function.update (fun _ => none) .pusher
        (some (.tryPush default, (.pusher, .tryPush (.loadTail default 0)))),
      [.call .pusher (.tryPush default)]⟩ := by
    refine hcall.next (a := .step .pusher false) ?_
    simp only [machine, next, Function.update_self, Function.update_idem]
    rfl
  obtain ⟨s, hs, hhist⟩ : ∃ s, (twoThreads (create T size)).machine.Reachable s ∧
      s.history = [.call .pusher (.tryPush default), .ret .pusher (.kept default)] := by
    refine ⟨⟨⟨create T size, false⟩, Function.update (fun _ => none) .pusher none,
      [.call .pusher (.tryPush default), .ret .pusher (.kept default)]⟩,
      hload.next (a := .step .pusher false) ?_, rfl⟩
    simp only [machine, next, Function.update_self, Function.update_idem, twoThreads, step,
      tryPush, Option.map_some]
    rw [if_pos (show (create T size).size.toInt ≤ ((0 : BitVec 32) - (create T size).tail).toInt
      from hneg)]
    rfl
  obtain ⟨a, ha, heq⟩ := hlin s hs
  have hpos : 0 < (create T size).size.toNat := by omega
  exact (elementFifo_first hpos ha).2.2 default (heq.trans hhist)

/-- **The `AtomicQueueB2` is a queue.**  Take a queue that was made for `size` elements, a
thread that calls `try_push` and `push`, and a thread that calls `try_pop`, and `pop` when
`was_empty` has returned `false` to it, and let both ask for the size.  Whatever the order of
their loads, exchanges and stores, and also when the tickets wrap around, they see a history of
a first-in first-out queue, whose `try_push` fails only when there are as many elements in it as
the arrays are long.  The exception are the sizes above 2³⁰ for which the arrays get the
length 2³¹. -/
theorem linearizable_elementFifo_iff (T : Type) [Inhabited T] (size : BitVec 32) :
    (twoThreads (create T size)).Linearizable (elementFifo T (create T size).size.toNat) ↔
      ¬ (2 ^ 30 < size.toNat ∧ size.toNat ≤ 2 ^ 31) := by
  constructor
  · rintro hlin ⟨hlow, hhigh⟩
    refine not_linearizable ?_ hlin
    have hclog : Nat.clog 2 size.toNat = 31 := by
      refine le_antisymm ((Nat.clog_le_iff_le_pow (by omega)).mpr hhigh) ?_
      exact (Nat.lt_clog_iff_pow_lt (by omega)).mpr hlow
    rw [size_create, if_pos hhigh, hclog]
    rfl
  · intro hsize
    exact (refines (size_create_le hsize)).linearizable

end EventManager.AtomicQueueB2
