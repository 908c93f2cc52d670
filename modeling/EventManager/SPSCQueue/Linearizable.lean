import EventManager.SPSCQueue.Invariant

/-!
# The SPSCQueue is a bounded queue

Every history of the queue, with one thread that puts elements in and one that takes them
out, is a history of a first-in first-out queue for as many elements as the constructor was
asked for (`linearizable_boundedFifo`).  An `emplace` takes effect when it stores `writeIdx_`, a
`try_emplace` that fails when it loads `readIdx_`, `pop` when it stores `readIdx_`, and
`size`, `empty` and a `front` that finds nothing when they load the index of the other side.
-/

namespace EventManager.SPSCQueue

open Steps Impl

variable {T : Type} [Inhabited T]

/-! ### The bounded queue, operation by operation -/

@[simp] lemma boundedFifo_emplace (n : ℕ) (xs : List T) (wait : Bool) (x : T) :
    (boundedFifo T n).apply xs (.emplace wait x) () =
      if xs.length < n then some (xs ++ [x], emplaced wait true)
      else if wait then none
      else some (xs, .bool false) := by
  cases xs <;> rfl

@[simp] lemma boundedFifo_front (n : ℕ) (xs : List T) :
    (boundedFifo T n).apply xs .front () = some (xs, .bool (!xs.isEmpty)) := by
  cases xs <;> rfl

@[simp] lemma boundedFifo_pop (n : ℕ) {xs : List T} (h : xs ≠ []) :
    (boundedFifo T n).apply xs .pop () = some (xs.tail, .unit) := by
  cases xs with
  | nil => exact absurd rfl h
  | cons x xs => rfl

@[simp] lemma boundedFifo_empty (n : ℕ) (xs : List T) :
    (boundedFifo T n).apply xs (.query .empty) () = some (xs, .bool xs.isEmpty) := by
  cases xs <;> rfl

@[simp] lemma boundedFifo_move (n : ℕ) (x : T) (xs : List T) :
    (boundedFifo T n).apply (x :: xs) .move () = some (default :: xs, .elem x) := rfl

/-! ### The threads -/

/-- Where the producing thread may be in its call, and the result of the call if it has taken
effect. -/
inductive Producing (q : SPSCQueue T) : Op T → Pc T → Option (Res T) → Prop
  | load (wait : Bool) (x : T) : Producing q (.emplace wait x) (.emplace wait (.load x)) none
  | refresh (wait : Bool) (x : T) : Producing q (.emplace wait x)
      (.emplace wait (.refresh x q.writeIdx (q.nextIdx q.writeIdx))) none
  | construct (wait : Bool) (x : T) (h : q.nextIdx q.writeIdx ≠ q.readIdxCache) :
      Producing q (.emplace wait x)
        (.emplace wait (.construct x q.writeIdx (q.nextIdx q.writeIdx))) none
  | store (wait : Bool) (x : T) : Producing q (.emplace wait x)
      (.emplace wait (.store (q.nextIdx q.writeIdx))) none
  | start (what : Query) : Producing q (.query what) (.query what .start) none
  | write (what : Query) : Producing q (.query what) (.query what (.write q.writeIdx)) none
  | read (what : Query) (readIdx : ℕ) : Producing q (.query what) (.query what (.read readIdx))
      (some (answer q.capacity (q.writeIdx, readIdx) what))

/-- Where the consuming thread may be.  It pops only what its own copy of `writeIdx_` has told
it about. -/
inductive Consuming (s : Client T) : Op T → Pc T → Option (Res T) → Prop
  | load : Consuming s .front (.front .load) none
  | refresh : Consuming s .front (.front (.refresh s.queue.readIdx)) none
  | move (h : s.pointer.isSome) : Consuming s .move .move none
  | popLoad (h : s.queue.writeIdxCache ≠ s.queue.readIdx) : Consuming s .pop (.pop .load) none
  | popCheck (h : s.queue.writeIdxCache ≠ s.queue.readIdx) :
      Consuming s .pop (.pop (.check s.queue.readIdx)) none
  | popDestroy (h : s.queue.writeIdxCache ≠ s.queue.readIdx) :
      Consuming s .pop (.pop (.destroy s.queue.readIdx)) none
  | popStore (h : s.queue.writeIdxCache ≠ s.queue.readIdx) :
      Consuming s .pop (.pop (.store (s.queue.nextIdx s.queue.readIdx))) none
  | start (what : Query) : Consuming s (.query what) (.query what .start) none
  | write (what : Query) (writeIdx : ℕ) : Consuming s (.query what) (.query what (.write writeIdx))
      (some (answer s.queue.capacity (writeIdx, s.queue.readIdx) what))
  | read (what : Query) : Consuming s (.query what) (.query what (.read s.queue.readIdx)) none

/-- What `emplace` has constructed in a slot that is not in the queue yet. -/
def inflight : Option (Op T × Pc T × Option (Res T)) → List T
  | some (.emplace _ x, .emplace _ (.store _), _) => [x]
  | _ => []

/-- `pop` has destroyed the first element. -/
def popped : Option (Op T × Pc T × Option (Res T)) → Bool
  | some (_, .pop (.store _), _) => true
  | _ => false

/-- The invariant of a queue for `n` elements that holds `xs`, when the producing thread is at
`p` and the consuming one at `c`. -/
structure Inv (n : ℕ) (s : Client T) (p c : Option (Op T × Pc T × Option (Res T)))
    (xs : List T) : Prop where
  capacity : s.queue.capacity = n + 1
  ring : RingInv s.queue (inflight p) (popped c) xs
  producing : ∀ op k d, p = some (op, k, d) → Producing s.queue op k d
  consuming : ∀ op k d, c = some (op, k, d) → Consuming s op k d
  pointer : ∀ a, s.pointer = some a → a = s.queue.readIdx + s.queue.kPadding ∧
    s.queue.writeIdxCache ≠ s.queue.readIdx

omit [Inhabited T] in
/-- The producing thread looks at what only it writes to. -/
lemma Producing.congr {q q' : SPSCQueue T} {op : Op T} {k : Pc T} {d : Option (Res T)}
    (h : Producing q op k d) (hcap : q'.capacity = q.capacity) (hw : q'.writeIdx = q.writeIdx)
    (hc : q'.readIdxCache = q.readIdxCache) : Producing q' op k d := by
  have hnext : ∀ i, q'.nextIdx i = q.nextIdx i := fun i => by simp only [nextIdx, hcap]
  cases h with
  | load wait x => exact .load wait x
  | refresh wait x =>
    rw [← hw, ← hnext]
    exact .refresh wait x
  | construct wait x h =>
    rw [← hw, ← hnext] at h ⊢
    rw [← hc] at h
    exact .construct wait x h
  | store wait x =>
    rw [← hw, ← hnext]
    exact .store wait x
  | start what => exact .start what
  | write what =>
    rw [← hw]
    exact .write what
  | read what r =>
    rw [← hw, ← hcap]
    exact .read what r

omit [Inhabited T] in
lemma Consuming.congr {s s' : Client T} {op : Op T} {k : Pc T} {d : Option (Res T)}
    (h : Consuming s op k d) (hcap : s'.queue.capacity = s.queue.capacity)
    (hr : s'.queue.readIdx = s.queue.readIdx)
    (hc : s'.queue.writeIdxCache = s.queue.writeIdxCache) (hp : s'.pointer = s.pointer) :
    Consuming s' op k d := by
  have hnext : ∀ i, s'.queue.nextIdx i = s.queue.nextIdx i := fun i => by
    simp only [nextIdx, hcap]
  cases h with
  | load => exact .load
  | refresh =>
    rw [← hr]
    exact .refresh
  | move h => exact .move (by rwa [hp])
  | popLoad h => exact .popLoad (by rwa [hr, hc])
  | popCheck h =>
    rw [← hr]
    exact .popCheck (by rwa [hr, hc])
  | popDestroy h =>
    rw [← hr]
    exact .popDestroy (by rwa [hr, hc])
  | popStore h =>
    rw [← hnext, ← hr]
    exact .popStore (by rwa [hr, hc])
  | start what => exact .start what
  | write what w =>
    rw [← hr, ← hcap]
    exact .write what w
  | read what =>
    rw [← hr]
    exact .read what

namespace Inv

variable {n : ℕ} {s s' : Client T} {p c : Option (Op T × Pc T × Option (Res T))} {xs : List T}
  {op : Op T} {k : Pc T} {d : Option (Res T)} {choice : Bool} {r : Pc T ⊕ Res T}

omit [Inhabited T] in
/-- The parts of the invariant that speak about the consuming thread, after a step of the
producing one. -/
lemma of_producer {q : SPSCQueue T} {p' : Option (Op T × Pc T × Option (Res T))} {xs' : List T}
    (h : Inv n s p c xs) (hring : RingInv q (inflight p') (popped c) xs')
    (hprod : ∀ op k d, p' = some (op, k, d) → Producing q op k d)
    (hcap : q.capacity = s.queue.capacity) (hr : q.readIdx = s.queue.readIdx)
    (hc : q.writeIdxCache = s.queue.writeIdxCache) (hpad : q.kPadding = s.queue.kPadding) :
    Inv n { s with queue := q } p' c xs' where
  capacity := hcap.trans h.capacity
  ring := hring
  producing := hprod
  consuming op k d hk := (h.consuming op k d hk).congr hcap hr hc rfl
  pointer a ha := by
    rw [hr, hc, hpad]
    exact h.pointer a ha

lemma step_producer (h : Inv n s (some (op, k, d)) c xs) (hs : step s k choice = some (s', r)) :
    ∃ xs' d', (boundedFifo T n).Taken xs op d xs' d' ∧ (∀ res, r = .inr res → d' = some res) ∧
      Inv n s' (r.getLeft?.map fun k' => (op, k', d')) c xs' := by
  have hring := h.ring
  have hcap := h.capacity
  cases h.producing op k d rfl with
  | load wait x =>
    simp only [step, emplaceWith, Option.map_some, Sum.map_inl] at hs
    cases hs
    refine ⟨xs, none, .stay none, by simp, ?_⟩
    split
    · refine h.of_producer hring ?_ rfl rfl rfl rfl
      rintro _ _ _ ⟨⟩
      exact .refresh wait x
    · rename_i hne
      refine h.of_producer hring ?_ rfl rfl rfl rfl
      rintro _ _ _ ⟨⟩
      exact .construct wait x hne
  | refresh wait x =>
    simp only [step, emplaceWith, Option.map_some] at hs
    have hring' := hring.refresh_read
    by_cases hnext : s.queue.nextIdx s.queue.writeIdx = s.queue.readIdx
    · have hfull : ¬ xs.length < n := by
        have := hring.next_eq_readIdx_iff.mp hnext
        omega
      cases wait with
      | true =>
        -- `emplace` loads the index again
        simp only [hnext, ne_eq, not_true_eq_false, if_false, if_true, Sum.map_inl] at hs
        cases hs
        refine ⟨xs, none, .stay none, by simp, h.of_producer hring' ?_ rfl rfl rfl rfl⟩
        rintro _ _ _ ⟨⟩
        rw [← hnext]
        exact .refresh true x
      | false =>
        simp only [hnext, ne_eq, not_true_eq_false, if_false, Bool.false_eq_true,
          Sum.map_inr] at hs
        cases hs
        refine ⟨xs, some (.bool false), .effect () ?_, by simp [emplaced],
          h.of_producer hring' (by simp) rfl rfl rfl rfl⟩
        simp [hfull]
    · simp only [ne_eq, hnext, not_false_eq_true, if_true, Sum.map_inl] at hs
      cases hs
      refine ⟨xs, none, .stay none, by simp, h.of_producer hring' ?_ rfl rfl rfl rfl⟩
      rintro _ _ _ ⟨⟩
      exact .construct (q := { s.queue with readIdxCache := s.queue.readIdx }) wait x hnext
  | construct wait x hne =>
    obtain ⟨slots, hslots, hring'⟩ := hring.construct hne x
    simp only [step, emplaceWith, hslots, Option.map_some, Sum.map_inl] at hs
    cases hs
    refine ⟨xs, none, .stay none, by simp, h.of_producer hring' ?_ rfl rfl rfl rfl⟩
    rintro _ _ _ ⟨⟩
    exact .store (q := { s.queue with slots := slots }) wait x
  | store wait x =>
    simp only [step, emplaceWith, Option.map_some, Sum.map_inr] at hs
    cases hs
    have hroom : xs.length < n := by
      have := hring.length_lt
      simp only [inflight, List.length_singleton] at this
      omega
    refine ⟨xs ++ [x], some (emplaced wait true), .effect () ?_, by simp,
      h.of_producer hring.store_write (by simp) rfl rfl rfl rfl⟩
    simp [hroom]
  | start what =>
    cases choice with
    | true =>
      cases hs
      refine ⟨xs, none, .stay none, by simp, h.of_producer hring ?_ rfl rfl rfl rfl⟩
      rintro _ _ _ ⟨⟩
      exact .write what
    | false =>
      -- the answer is settled by the index of the other side
      cases hs
      refine ⟨xs, _, .effect () (hring.answer_eq n what), by simp,
        h.of_producer hring ?_ rfl rfl rfl rfl⟩
      rintro _ _ _ ⟨⟩
      exact .read what s.queue.readIdx
  | write what =>
    cases hs
    refine ⟨xs, _, .effect () (hring.answer_eq n what), by simp,
      h.of_producer hring (by simp) rfl rfl rfl rfl⟩
  | read what readIdx =>
    cases hs
    exact ⟨xs, _, .stay _, by simp, h.of_producer hring (by simp) rfl rfl rfl rfl⟩

omit [Inhabited T] in
lemma of_consumer {c' : Option (Op T × Pc T × Option (Res T))} {xs' : List T}
    (h : Inv n s p c xs) (hring : RingInv s'.queue (inflight p) (popped c') xs')
    (hcons : ∀ op k d, c' = some (op, k, d) → Consuming s' op k d)
    (hcap : s'.queue.capacity = s.queue.capacity) (hw : s'.queue.writeIdx = s.queue.writeIdx)
    (hc : s'.queue.readIdxCache = s.queue.readIdxCache)
    (hp : ∀ a, s'.pointer = some a → a = s'.queue.readIdx + s'.queue.kPadding ∧
      s'.queue.writeIdxCache ≠ s'.queue.readIdx) : Inv n s' p c' xs' where
  capacity := hcap.trans h.capacity
  ring := hring
  producing op k d hk := (h.producing op k d hk).congr hcap hw hc
  consuming := hcons
  pointer := hp

lemma step_consumer (h : Inv n s p (some (op, k, d)) xs) (hs : step s k choice = some (s', r)) :
    ∃ xs' d', (boundedFifo T n).Taken xs op d xs' d' ∧ (∀ res, r = .inr res → d' = some res) ∧
      Inv n s' p (r.getLeft?.map fun k' => (op, k', d')) xs' := by
  have hring := h.ring
  cases h.consuming op k d rfl with
  | load =>
    by_cases hcache : s.queue.readIdx = s.queue.writeIdxCache
    · simp only [step, SPSCQueue.front, if_pos hcache] at hs
      cases hs
      refine ⟨xs, none, .stay none, by simp, h.of_consumer hring ?_ rfl rfl rfl h.pointer⟩
      rintro _ _ _ ⟨⟩
      exact .refresh
    · simp only [step, SPSCQueue.front, if_neg hcache] at hs
      cases hs
      have hne := hring.ne_nil_of_cache (Ne.symm hcache)
      refine ⟨xs, some (.bool true), .effect () (by simp [hne]), by simp,
        h.of_consumer hring (by simp) rfl rfl rfl ?_⟩
      rintro _ ⟨⟩
      exact ⟨rfl, Ne.symm hcache⟩
  | refresh =>
    have hring' := hring.refresh_write
    by_cases hempty : s.queue.writeIdx = s.queue.readIdx
    · simp only [step, SPSCQueue.front, if_pos hempty] at hs
      cases hs
      have hnil := hring.writeIdx_eq_readIdx_iff.mp hempty
      exact ⟨xs, some (.bool false), .effect () (by simp [hnil]), by simp,
        h.of_consumer hring' (by simp) rfl rfl rfl (by simp)⟩
    · simp only [step, SPSCQueue.front, if_neg hempty] at hs
      cases hs
      have hne : xs ≠ [] := fun hnil => hempty (hring.writeIdx_eq_readIdx_iff.mpr hnil)
      refine ⟨xs, some (.bool true), .effect () (by simp [hne]), by simp,
        h.of_consumer hring' (by simp) rfl rfl rfl ?_⟩
      rintro _ ⟨⟩
      exact ⟨rfl, hempty⟩
  | move hptr =>
    obtain ⟨a, ha⟩ := Option.isSome_iff_exists.mp hptr
    obtain ⟨rfl, hcache⟩ := h.pointer a ha
    obtain ⟨x, xs, rfl⟩ := List.exists_cons_of_ne_nil (hring.ne_nil_of_cache hcache)
    obtain ⟨q', hmove, hq', hring'⟩ := hring.move
    simp only [step, ha, Option.bind_some, hmove, Option.map_some] at hs
    cases hs
    refine ⟨default :: xs, some (.elem x), .effect () (by simp), by simp,
      h.of_consumer hring' (by simp) ?_ ?_ ?_ ?_⟩
    · rw [hq']
    · rw [hq']
    · rw [hq']
    · rw [hq']
      rintro _ ⟨⟩
      exact ⟨rfl, hcache⟩
  | popLoad hcache =>
    cases hs
    refine ⟨xs, none, .stay none, by simp, h.of_consumer hring ?_ rfl rfl rfl h.pointer⟩
    rintro _ _ _ ⟨⟩
    exact .popCheck hcache
  | popCheck hcache =>
    have hne : s.queue.writeIdx ≠ s.queue.readIdx := fun heq =>
      hring.ne_nil_of_cache hcache (hring.writeIdx_eq_readIdx_iff.mp heq)
    simp only [step, SPSCQueue.pop, if_pos hne, Option.map_some] at hs
    cases hs
    refine ⟨xs, none, .stay none, by simp, h.of_consumer hring ?_ rfl rfl rfl h.pointer⟩
    rintro _ _ _ ⟨⟩
    exact .popDestroy hcache
  | popDestroy hcache =>
    obtain ⟨x, xs, rfl⟩ := List.exists_cons_of_ne_nil (hring.ne_nil_of_cache hcache)
    obtain ⟨slots, hslots, hring'⟩ := hring.destroy
    simp only [step, SPSCQueue.pop, hslots, Option.map_some] at hs
    cases hs
    refine ⟨x :: xs, none, .stay none, by simp,
      h.of_consumer hring' ?_ rfl rfl rfl h.pointer⟩
    rintro _ _ _ ⟨⟩
    exact .popStore (s := ⟨{ s.queue with slots := slots }, s.pointer⟩) hcache
  | popStore hcache =>
    have hne := hring.ne_nil_of_cache hcache
    cases hs
    exact ⟨xs.tail, some .unit, .effect () (by simp [hne]), by simp,
      h.of_consumer (hring.store_read hcache) (by simp) rfl rfl rfl (by simp)⟩
  | start what =>
    cases choice with
    | true =>
      -- the answer is settled by the index of the other side
      cases hs
      refine ⟨xs, _, .effect () (hring.answer_eq n what), by simp,
        h.of_consumer hring ?_ rfl rfl rfl h.pointer⟩
      rintro _ _ _ ⟨⟩
      exact .write what s.queue.writeIdx
    | false =>
      cases hs
      refine ⟨xs, none, .stay none, by simp, h.of_consumer hring ?_ rfl rfl rfl h.pointer⟩
      rintro _ _ _ ⟨⟩
      exact .read what
  | write what writeIdx =>
    cases hs
    exact ⟨xs, _, .stay _, by simp, h.of_consumer hring (by simp) rfl rfl rfl h.pointer⟩
  | read what =>
    cases hs
    exact ⟨xs, _, .effect () (hring.answer_eq n what), by simp,
      h.of_consumer hring (by simp) rfl rfl rfl h.pointer⟩

end Inv

/-! ### The constructor -/

variable {q : SPSCQueue T} {sizeofT capacity : ℕ}

lemma padding_le (sizeofT : ℕ) : padding sizeofT ≤ 64 := by
  have hdiv : (kCacheLineSize - 1) / sizeofT ≤ 63 := Nat.div_le_self 63 sizeofT
  simp only [padding]
  omega

/-- One slot more than the elements that were asked for, or what the address space leaves. -/
lemma ringLength_eq (hcap : capacity < sizeMax) (kPadding : ℕ) :
    ringLength kPadding capacity =
      if max 1 capacity + 1 > sizeMax - 2 * kPadding then sizeMax - 2 * kPadding
      else max 1 capacity + 1 := by
  have hlt : capacity < 2 ^ 64 - 1 := hcap
  have hmod : ((if capacity < 1 then 1 else capacity) + 1) % 2 ^ 64 = max 1 capacity + 1 := by
    rw [Nat.mod_eq_of_lt (by split <;> omega)]
    split <;> omega
  simp only [ringLength, hmod]

omit [Inhabited T] in
/-- When the constructor does not throw, it has not cut the capacity down. -/
lemma create_eq_some (hcap : capacity < sizeMax) (h : create T sizeofT capacity = some q) :
    max 1 capacity + 1 + 2 * padding sizeofT ≤ ptrdiffMax ∧
      q = ⟨max 1 capacity + 1, padding sizeofT,
        .raw (max 1 capacity + 1 + 2 * padding sizeofT), 0, 0, 0, 0⟩ := by
  have hpad := padding_le sizeofT
  have hmax : ptrdiffMax + 1 < sizeMax := by decide
  have hlength := ringLength_eq hcap (padding sizeofT)
  simp only [create] at h
  split at h
  · rename_i hle
    have hle' := hle.trans (Nat.div_le_self _ _)
    have huncut : ringLength (padding sizeofT) capacity = max 1 capacity + 1 := by
      rw [hlength] at hle' ⊢
      split at hle' <;> split <;> omega
    rw [huncut] at hle' h
    exact ⟨hle', (Option.some.inj h).symm⟩
  · cases h

omit [Inhabited T] in
lemma inv_create (hcap : capacity < sizeMax) (h : create T sizeofT capacity = some q) :
    Inv (max 1 capacity) ⟨q, none⟩ none none [] := by
  obtain ⟨hle, rfl⟩ := create_eq_some hcap h
  refine ⟨rfl, ?_, by simp, by simp, by simp⟩
  exact {
    pos := by show 0 < max 1 capacity + 1; omega
    capacity_le := hle
    slots_length := rfl
    readIdx_lt := Nat.succ_pos _
    writeIdx_eq := rfl
    readIdxCache_lt := Nat.succ_pos _
    readIdxCache := ⟨0, rfl, Nat.succ_pos _⟩
    writeIdxCache := ⟨0, le_rfl, rfl⟩
    window := Ring.Window.raw _ _
    outside := fun i hi => absurd rfl hi
    popped_ne := by simp [popped] }

/-- The invariant relates the queue to the bounded queue. -/
theorem refines (hcap : capacity < sizeMax) (h : create T sizeofT capacity = some q) :
    (threads q).Refines (boundedFifo T (max 1 capacity)) fun s ph xs =>
      Inv (max 1 capacity) s (ph .producer) (ph .consumer) xs where
  init := inv_create hcap h
  call {s ph xs t op k} hI ht hk := by
    cases t with
    | producer =>
      simp only [ht] at hI
      simp only [Function.update_self, ne_eq, reduceCtorEq, not_false_eq_true,
        Function.update_of_ne]
      refine hI.of_producer ?_ ?_ rfl rfl rfl rfl
      · cases op <;> simp only [threads, call] at hk <;> cases hk
        · exact hI.ring
        · exact hI.ring
      · rintro _ _ _ ⟨⟩
        cases op <;> simp only [threads, call] at hk <;> cases hk
        · exact .load _ _
        · exact .start _
    | consumer =>
      simp only [ht] at hI
      simp only [Function.update_self, ne_eq, reduceCtorEq, not_false_eq_true,
        Function.update_of_ne]
      cases op with
      | emplace wait x => cases hk
      | front =>
        cases hk
        refine hI.of_consumer hI.ring ?_ rfl rfl rfl hI.pointer
        rintro _ _ _ ⟨⟩
        exact .load
      | move =>
        obtain ⟨hptr, hk⟩ := Option.ite_none_right_eq_some.mp hk
        cases hk
        refine hI.of_consumer hI.ring ?_ rfl rfl rfl hI.pointer
        rintro _ _ _ ⟨⟩
        exact .move hptr
      | pop =>
        obtain ⟨hptr, hk⟩ := Option.ite_none_right_eq_some.mp hk
        cases hk
        obtain ⟨a, ha⟩ := Option.isSome_iff_exists.mp hptr
        refine hI.of_consumer hI.ring ?_ rfl rfl rfl hI.pointer
        rintro _ _ _ ⟨⟩
        exact .popLoad (hI.pointer a ha).2
      | query what =>
        cases hk
        refine hI.of_consumer hI.ring ?_ rfl rfl rfl hI.pointer
        rintro _ _ _ ⟨⟩
        exact .start what
  step {s ph xs t op k d choice s' r} hI ht hs := by
    cases t with
    | producer =>
      rw [ht] at hI
      obtain ⟨xs', d', htaken, hret, hI'⟩ := hI.step_producer hs
      exact ⟨xs', d', htaken, hret, by simpa using hI'⟩
    | consumer =>
      rw [ht] at hI
      obtain ⟨xs', d', htaken, hret, hI'⟩ := hI.step_consumer hs
      exact ⟨xs', d', htaken, hret, by simpa using hI'⟩

/-- **The `SPSCQueue` is a bounded queue.**  Take a queue that was made for `capacity` elements
(at least one), a thread that calls `emplace`, `try_emplace`, `size` and `empty`, and a thread
that calls `front`, `pop`, `size` and `empty` and moves from the element that `front` points
to.  Whatever the order of their loads, stores and accesses to the slots, they see a history of
a first-in first-out queue for `capacity` elements, whose `try_emplace` fails only when it is
full. -/
theorem linearizable_boundedFifo (hcap : capacity < sizeMax)
    (h : create T sizeofT capacity = some q) :
    (threads q).Linearizable (boundedFifo T (max 1 capacity)) :=
  (refines hcap h).linearizable

/-- A queue for three elements of eight bytes. -/
theorem linearizable_boundedFifo_of_three :
    ∃ q, create ℕ 8 3 = some q ∧ (threads q).Linearizable (boundedFifo ℕ 3) := by
  have hcreate : create ℕ 8 3 = some ⟨4, 8, .raw 20, 0, 0, 0, 0⟩ := rfl
  exact ⟨_, hcreate, linearizable_boundedFifo (by decide) hcreate⟩

end EventManager.SPSCQueue
