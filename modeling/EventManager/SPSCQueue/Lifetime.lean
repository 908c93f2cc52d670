import EventManager.SPSCQueue.Linearizable

/-!
# The slots of the SPSCQueue

The accesses to the slots are in order in every run: an element is constructed only in a raw
slot of the storage, and only constructed elements are read, assigned to and destroyed; the
assertion of `pop` holds (`safe_iff`).  There is one queue of which this is not true.  A
queue for `SIZE_MAX` elements has no ring, since the slot that the constructor adds makes
`capacity_` wrap to 0, and `emplace` walks through the padding and out of the storage.

The destructor pops what is left; the storage that it gives back is raw (`destroy_raw`).
-/

namespace EventManager.SPSCQueue

open Steps Impl

variable {T : Type} [Inhabited T] {q : SPSCQueue T} {sizeofT capacity : ℕ}

/-! ### A step is not refused -/

namespace Inv

variable {n : ℕ} {s : Client T} {p c : Option (Op T × Pc T × Option (Res T))} {xs : List T}
  {op : Op T} {k : Pc T} {d : Option (Res T)} {choice : Bool}

lemma producer_isSome (h : Inv n s (some (op, k, d)) c xs) : (step s k choice).isSome := by
  cases h.producing op k d rfl with
  | construct wait x hne =>
    obtain ⟨slots, hslots, -⟩ := h.ring.construct hne x
    simp [step, emplaceWith, hslots]
  | start what => cases choice <;> rfl
  | _ => rfl

lemma consumer_isSome (h : Inv n s p (some (op, k, d)) xs) : (step s k choice).isSome := by
  have hring := h.ring
  cases h.consuming op k d rfl with
  | load =>
    simp only [step, SPSCQueue.front]
    split <;> rfl
  | move hptr =>
    obtain ⟨a, ha⟩ := Option.isSome_iff_exists.mp hptr
    obtain ⟨rfl, hcache⟩ := h.pointer a ha
    obtain ⟨x, xs, rfl⟩ := List.exists_cons_of_ne_nil (hring.ne_nil_of_cache hcache)
    obtain ⟨q', hmove, -⟩ := hring.move
    simp [step, ha, hmove]
  | popCheck hcache =>
    have hne : s.queue.writeIdx ≠ s.queue.readIdx := fun heq =>
      hring.ne_nil_of_cache hcache (hring.writeIdx_eq_readIdx_iff.mp heq)
    simp [step, SPSCQueue.pop, hne]
  | popDestroy hcache =>
    obtain ⟨x, xs, rfl⟩ := List.exists_cons_of_ne_nil (hring.ne_nil_of_cache hcache)
    obtain ⟨slots, hslots, -⟩ := hring.destroy
    simp [step, SPSCQueue.pop, hslots]
  | start what => cases choice <;> rfl
  | _ => rfl

end Inv

lemma safe (hcap : capacity < sizeMax) (h : create T sizeofT capacity = some q) :
    (threads q).Safe := by
  refine (refines hcap h).safe fun {s ph xs t op k d choice} hI ht => ?_
  cases t with
  | producer =>
    rw [ht] at hI
    exact hI.producer_isSome
  | consumer =>
    rw [ht] at hI
    exact hI.consumer_isSome

/-- The pointer of the consuming thread is what `front` has returned, until `pop` returns. -/
lemma step_pointer {s s' : Client T} {k : Pc T} {choice : Bool} {r : Pc T ⊕ Res T}
    (h : step s k choice = some (s', r)) :
    (s'.pointer = s.pointer ∧
      ∀ res, r = .inr res → (∀ pc, k ≠ .front pc) ∧ ∀ pc, k ≠ .pop pc) ∨
      (∃ pc, k = .front pc ∧ r = .inr (.bool s'.pointer.isSome)) ∨
      ∃ pc, k = .pop pc ∧ r = .inr .unit := by
  cases k with
  | emplace wait pc =>
    obtain ⟨_, -, heq⟩ := Option.map_eq_some_iff.mp h
    cases heq
    exact Or.inl ⟨rfl, by simp⟩
  | front pc =>
    simp only [step] at h
    split at h
    · cases h
      exact Or.inl ⟨rfl, by simp⟩
    · cases h
      exact Or.inr (Or.inl ⟨pc, rfl, rfl⟩)
  | move =>
    obtain ⟨_, -, hmove⟩ := Option.bind_eq_some_iff.mp h
    obtain ⟨_, -, heq⟩ := Option.map_eq_some_iff.mp hmove
    cases heq
    exact Or.inl ⟨rfl, by simp⟩
  | pop pc =>
    obtain ⟨⟨q', next⟩, -, heq⟩ := Option.map_eq_some_iff.mp h
    cases next with
    | some pc' =>
      cases heq
      exact Or.inl ⟨rfl, by simp⟩
    | none =>
      cases heq
      exact Or.inr (Or.inr ⟨pc, rfl, rfl⟩)
  | query what pc =>
    simp only [step] at h
    split at h
    · cases h
      exact Or.inl ⟨rfl, by simp⟩
    · cases h
      exact Or.inl ⟨rfl, by simp⟩

/-! ### A queue for `SIZE_MAX` elements -/

omit [Inhabited T] in
/-- The ring has no slots, and the storage has those of the padding only. -/
lemma create_sizeMax (h : create T sizeofT sizeMax = some q) :
    q = ⟨0, padding sizeofT, .raw (2 * padding sizeofT), 0, 0, 0, 0⟩ := by
  have hlength : ringLength (padding sizeofT) sizeMax = 0 := by
    have hwrap : ((if sizeMax < 1 then 1 else sizeMax) + 1) % 2 ^ 64 = 0 := by decide
    simp only [ringLength, hwrap]
    rfl
  simp only [create, hlength] at h
  split at h
  · simpa using (Option.some.inj h).symm
  · cases h

/-- The queue for `SIZE_MAX` elements after `w` of them, while no call is in progress. -/
structure Overrun (kPadding w : ℕ) (s : Client T) : Prop where
  capacity : s.queue.capacity = 0
  kPadding_eq : s.queue.kPadding = kPadding
  writeIdx : s.queue.writeIdx = w
  readIdxCache : s.queue.readIdxCache = 0
  length : s.queue.slots.length = 2 * kPadding
  raw : ∀ i, w + kPadding ≤ i → s.queue.slots.cell i = none

variable {kPadding w : ℕ}

lemma Overrun.load {s : Threads (Client T) Side (Op T) (Res T) (Pc T)}
    (hs : (threads q).machine.Reachable s) (hidle : s.calls .producer = none)
    (h : Overrun kPadding w s.shared) (hw : w < 2 ^ 63) :
    ∃ s', (threads q).machine.Reachable s' ∧ s'.shared = s.shared ∧
      s'.calls .producer =
        some (.emplace false default, .emplace false (.construct default w (w + 1))) := by
  have hnext : s.shared.queue.nextIdx w = w + 1 := by
    rw [nextIdx, h.capacity, Nat.mod_eq_of_lt (by omega), if_neg (by omega)]
  obtain ⟨s₁, hs₁, hshared₁, hcalls₁⟩ :=
    exists_reachable_call (.emplace false default) hs hidle rfl
  have hload : step s₁.shared (.emplace false (.load default)) false =
      some (s₁.shared, .inl (.emplace false (.construct default w (w + 1)))) := by
    simp [step, emplaceWith, hshared₁, h.writeIdx, hnext, h.readIdxCache]
  have hbusy : s₁.calls .producer =
      some (.emplace false default, .emplace false (.load default)) := by
    simp [hcalls₁]
  obtain ⟨s₂, hs₂, hshared₂, hcalls₂⟩ := exists_reachable_step false hs₁ hbusy hload
  exact ⟨s₂, hs₂, hshared₂.trans hshared₁, by simp [hcalls₂]⟩

lemma Overrun.emplace {s : Threads (Client T) Side (Op T) (Res T) (Pc T)}
    (hs : (threads q).machine.Reachable s) (hidle : s.calls .producer = none)
    (h : Overrun kPadding w s.shared) (hw : w < kPadding) (hpad : kPadding ≤ 64) :
    ∃ s', (threads q).machine.Reachable s' ∧ s'.calls .producer = none ∧
      Overrun kPadding (w + 1) s'.shared := by
  obtain ⟨s₁, hs₁, hshared₁, hcalls₁⟩ := Overrun.load hs hidle h (by omega)
  have hraw : s.shared.queue.slots.cell (w + kPadding) = none := h.raw _ le_rfl
  obtain ⟨slots, hslots, hlength, hcell⟩ :=
    Slots.construct_of_raw (by rw [h.length]; omega) hraw default
  have hconstruct : step s₁.shared (.emplace false (.construct default w (w + 1))) false =
      some ({ s.shared with queue := { s.shared.queue with slots := slots } },
        .inl (.emplace false (.store (w + 1)))) := by
    simp [step, emplaceWith, hshared₁, h.kPadding_eq, hslots]
  obtain ⟨s₂, hs₂, hshared₂, hcalls₂⟩ := exists_reachable_step false hs₁ hcalls₁ hconstruct
  have hstore : step s₂.shared (.emplace false (.store (w + 1))) false =
      some ({ s.shared with queue := { s.shared.queue with slots := slots, writeIdx := w + 1 } },
        .inr (emplaced false true)) := by
    simp [step, emplaceWith, hshared₂]
  have hbusy : s₂.calls .producer =
      some (.emplace false default, .emplace false (.store (w + 1))) := by
    simp [hcalls₂]
  obtain ⟨s₃, hs₃, hshared₃, hcalls₃⟩ := exists_reachable_step false hs₂ hbusy hstore
  refine ⟨s₃, hs₃, by simp [hcalls₃], ?_⟩
  rw [hshared₃]
  refine ⟨h.capacity, h.kPadding_eq, rfl, h.readIdxCache, hlength.trans h.length, fun i hi => ?_⟩
  show slots.cell i = none
  rw [hcell, Function.update_of_ne (by omega)]
  exact h.raw i (by omega)

/-- After as many elements as the padding has slots, the next one is constructed outside of the
storage. -/
lemma not_safe_sizeMax (h : create T sizeofT sizeMax = some q) : ¬ (threads q).Safe := by
  have hq := create_sizeMax h
  have hpad := padding_le sizeofT
  intro hsafe
  have hrounds : ∀ w ≤ padding sizeofT, ∃ s, (threads q).machine.Reachable s ∧
      s.calls .producer = none ∧ Overrun (T := T) (padding sizeofT) w s.shared := by
    intro w
    induction w with
    | zero =>
      intro _
      subst hq
      exact ⟨_, .of_init rfl, rfl, rfl, rfl, rfl, rfl, rfl, fun _ _ => rfl⟩
    | succ w ih =>
      intro hw
      obtain ⟨s, hs, hidle, hov⟩ := ih (by omega)
      exact Overrun.emplace hs hidle hov hw hpad
  obtain ⟨s, hs, hidle, hov⟩ := hrounds _ le_rfl
  obtain ⟨s', hs', hshared, hcalls⟩ := Overrun.load hs hidle hov (by omega)
  have hstep := hsafe s' hs' _ _ _ false hcalls
  have hout :
      s.shared.queue.slots.construct (padding sizeofT + padding sizeofT) default = none := by
    rw [Slots.construct, dif_neg]
    rw [hov.length]
    omega
  simp [threads, step, emplaceWith, hshared, hov.kPadding_eq, hout] at hstep

/-- **The accesses to the slots are in order.**  A queue that can be made is safe, whatever its
two threads do, unless it was asked for `SIZE_MAX` elements: no element is constructed where
there is one, or outside of the storage, none is read, moved from or destroyed where there is
none, and the assertion of `pop` never fails. -/
theorem safe_iff (hcap : capacity ≤ sizeMax) (h : create T sizeofT capacity = some q) :
    (threads q).Safe ↔ capacity ≠ sizeMax := by
  constructor
  · rintro hsafe rfl
    exact not_safe_sizeMax h hsafe
  · intro hne
    exact safe (by omega) h

/-- A queue for `SIZE_MAX` elements of eight bytes is not safe. -/
theorem not_safe_of_eight : ∃ q, create ℕ 8 sizeMax = some q ∧ ¬ (threads q).Safe := by
  have hcreate : create ℕ 8 sizeMax = some ⟨0, 8, .raw 16, 0, 0, 0, 0⟩ := rfl
  exact ⟨_, hcreate, fun hsafe => (safe_iff le_rfl hcreate).mp hsafe rfl⟩

/-! ### The destructor -/

/-- The loop of the destructor, `while (front()) pop();`, with at most `fuel` tests: the
elements that its calls of `pop` find behind the pointer, and what it leaves of the queue that
was `q` when it was new. -/
def drain (q : SPSCQueue T) : ℕ → Client T → Option (List T × Client T)
  | 0, _ => none
  | fuel + 1, s => ((threads q).alone false 2 s (.front .load)).bind fun p =>
      match p.2 with
      | .bool true => (p.1.pointer.bind p.1.queue.slots.cell).bind fun x =>
          ((threads q).alone false 4 p.1 (.pop .load)).bind fun p' =>
            (drain q fuel p'.1).map fun r => (x :: r.1, r.2)
      | _ => some ([], p.1)

section

variable {s s' : Client T} {x : T} {xs : List T} {k : Pc T} {res : Res T} {fuel : ℕ}

lemma Inv.alone (hcap : capacity < sizeMax) (h : create T sizeofT capacity = some q)
    (hI : Inv (max 1 capacity) s none none xs) (op : Op T) (hk : call s .consumer op = some k)
    (halone : (threads q).alone false fuel s k = some (s', res)) :
    ∃ xs', (boundedFifo T (max 1 capacity)).apply xs op () = some (xs', res) ∧
      Inv (max 1 capacity) s' none none xs' := by
  obtain ⟨xs', ⟨⟩, happly, hI'⟩ := (refines hcap h).call_alone hI hk halone
  exact ⟨xs', happly, hI'⟩

lemma front_alone (hcap : capacity < sizeMax) (h : create T sizeofT capacity = some q)
    (hI : Inv (max 1 capacity) s none none xs) :
    ∃ s', (threads q).alone false 2 s (.front .load) = some (s', .bool (!xs.isEmpty)) ∧
      Inv (max 1 capacity) s' none none xs ∧ (!xs.isEmpty) = s'.pointer.isSome := by
  obtain ⟨s', halone⟩ : ∃ s', (threads q).alone false 2 s (.front .load) =
      some (s', .bool s'.pointer.isSome) := by
    by_cases hcache : s.queue.readIdx = s.queue.writeIdxCache
    · exact ⟨⟨{ s.queue with writeIdxCache := s.queue.writeIdx },
        if s.queue.writeIdx = s.queue.readIdx then none
        else some (s.queue.readIdx + s.queue.kPadding)⟩, by
          simp [Impl.alone, threads, step, SPSCQueue.front, hcache]⟩
    · exact ⟨⟨s.queue, some (s.queue.readIdx + s.queue.kPadding)⟩, by
        simp [Impl.alone, threads, step, SPSCQueue.front, hcache]⟩
  obtain ⟨xs', happly, hI'⟩ := hI.alone hcap h .front rfl halone
  rw [boundedFifo_front, Option.some_inj, Prod.mk.injEq, Res.bool.injEq] at happly
  obtain ⟨rfl, hres⟩ := happly
  exact ⟨s', hres ▸ halone, hI', hres⟩

omit [Inhabited T] in
lemma RingInv.idle_window (h : RingInv q [] false xs) :
    Ring.Window q.capacity (fun i => q.slots.cell (i + q.kPadding)) q.readIdx xs := by
  simpa using h.window

lemma pop_alone (hcap : capacity < sizeMax) (h : create T sizeofT capacity = some q)
    (hI : Inv (max 1 capacity) s none none (x :: xs)) (hptr : s.pointer.isSome) :
    s.pointer.bind s.queue.slots.cell = some x ∧
    ∃ s', (threads q).alone false 4 s (.pop .load) = some (s', .unit) ∧
      Inv (max 1 capacity) s' none none xs := by
  have hcall : call s .consumer .pop = some (.pop .load) := by simp [call, hptr]
  obtain ⟨a, ha⟩ := Option.isSome_iff_exists.mp hptr
  have hcheck : s.queue.writeIdx ≠ s.queue.readIdx := fun heq =>
    List.cons_ne_nil x xs (hI.ring.writeIdx_eq_readIdx_iff.mp heq)
  have hwindow := hI.ring.idle_window
  have hcell : s.queue.slots.cell (s.queue.readIdx + s.queue.kPadding) = some x :=
    hwindow.head hI.ring.readIdx_lt
  obtain ⟨slots, hslots, -⟩ := hI.ring.destroy
  have halone : (threads q).alone false 4 s (.pop .load) = some
      (⟨{ s.queue with slots := slots, readIdx := s.queue.nextIdx s.queue.readIdx }, none⟩,
        .unit) := by
    simp [Impl.alone, threads, step, SPSCQueue.pop, hcheck, hslots]
  obtain ⟨xs', happly, hI'⟩ := hI.alone hcap h .pop hcall halone
  rw [boundedFifo_pop _ (List.cons_ne_nil x xs), Option.some_inj, Prod.mk.injEq] at happly
  obtain ⟨rfl, -⟩ := happly
  refine ⟨?_, _, halone, hI'⟩
  rw [ha, Option.bind_some, (hI.pointer a ha).1, hcell]

/-- The loop of the destructor ends when the queue is empty. -/
lemma drain_eq_some (hcap : capacity < sizeMax) (h : create T sizeofT capacity = some q)
    (hI : Inv (max 1 capacity) s none none xs) (hfuel : xs.length < fuel) :
    ∃ s', drain q fuel s = some (xs, s') ∧ Inv (max 1 capacity) s' none none [] := by
  induction fuel generalizing s xs with
  | zero => omega
  | succ fuel ih =>
    obtain ⟨s₁, hfront, hI₁, hptr⟩ := front_alone hcap h hI
    -- `front` has answered whether there is an element, and holds the pointer to it
    cases xs with
    | nil => exact ⟨s₁, by simp [drain, hfront], hI₁⟩
    | cons x xs =>
      obtain ⟨hx, s₂, hpop, hI₂⟩ := pop_alone hcap h hI₁ hptr.symm
      obtain ⟨s', hdrain, hI'⟩ := ih hI₂ (by simpa using hfuel)
      exact ⟨s', by simp [drain, hfront, hx, hpop, hdrain], hI'⟩

end

omit [Inhabited T] in
lemma RingInv.raw (h : RingInv q [] false []) (i : ℕ) : q.slots.cell i = none := by
  by_contra hi
  obtain ⟨hlow, hhigh⟩ := h.outside i hi
  have hwin : q.slots.cell (i - q.kPadding + q.kPadding) = [][_]? :=
    h.window (i - q.kPadding) (by omega)
  rw [Nat.sub_add_cancel hlow, List.getElem?_nil] at hwin
  exact hi hwin

/-- **The destructor destroys what is left.**  When the threads have come to an end, the loop of
the destructor ends; the elements that it pops are those in the slots of the ring from
`readIdx_` on, as many as `size` counts, and the `capacity_ + 2 * kPadding` slots that are given
back are the whole storage and hold no object. -/
theorem drain_raw (hcap : capacity < sizeMax) (h : create T sizeofT capacity = some q)
    {s : Threads (Client T) Side (Op T) (Res T) (Pc T)} (hs : (threads q).machine.Reachable s)
    (hidle : ∀ t, s.calls t = none) :
    ∃ xs s', drain q (max 1 capacity + 1) s.shared = some (xs, s') ∧
      Ring.Window s.shared.queue.capacity
        (fun i => s.shared.queue.slots.cell (i + s.shared.queue.kPadding))
        s.shared.queue.readIdx xs ∧
      xs.length =
        size s.shared.queue.capacity s.shared.queue.writeIdx s.shared.queue.readIdx ∧
      s'.queue.slots.length = s'.queue.capacity + 2 * s'.queue.kPadding ∧
      ∀ i, s'.queue.slots.cell i = none := by
  obtain ⟨ph, a, -, hv⟩ := (refines hcap h).reachable hs
  have hph : ∀ t, ph t = none := fun t => by simpa [hidle t] using hv.calls t
  have hI : Inv (max 1 capacity) s.shared none none a.value := by
    simpa only [hph] using hv.rel
  have hlen : a.value.length < max 1 capacity + 1 := hI.capacity ▸ hI.ring.length_lt
  obtain ⟨s', hdrain, hI'⟩ := drain_eq_some hcap h hI hlen
  exact ⟨a.value, s', hdrain, hI.ring.idle_window, hI.ring.size_eq.symm,
    hI'.ring.slots_length, hI'.ring.raw⟩

/-- A call with `n` steps. -/
def calling (side : Side) (op : Op ℕ) (n : ℕ) : List (Impl.Action Side (Op ℕ) Bool) :=
  .call side op :: List.replicate n (.step side true)

/-- Three elements are put in, the first one is taken out, and a fourth one is put in, so that
`writeIdx_` comes to the start of the ring again. -/
def putFour : List (Impl.Action Side (Op ℕ) Bool) :=
  calling .producer (.emplace false 7) 3 ++ calling .producer (.emplace false 8) 3 ++
    calling .producer (.emplace false 9) 3 ++ calling .consumer .front 2 ++
    calling .consumer .pop 4 ++ calling .producer (.emplace false 10) 4

/-- The destructor of a queue for three elements that has been used, and is full. -/
theorem drain_raw_of_three : ∃ q s s', create ℕ 8 3 = some q ∧
    (threads q).machine.Reachable s ∧ s.shared.queue.writeIdx = 0 ∧
    drain q 4 s.shared = some ([8, 9, 10], s') ∧ ∀ i, s'.queue.slots.cell i = none := by
  have hcreate : create ℕ 8 3 = some ⟨4, 8, .raw 20, 0, 0, 0, 0⟩ := rfl
  obtain ⟨s, hs, hproducer, hconsumer, hw, hpops⟩ :
      ∃ s, (threads ⟨4, 8, .raw 20, 0, 0, 0, 0⟩).machine.exec
        ⟨⟨⟨4, 8, .raw 20, 0, 0, 0, 0⟩, none⟩, fun _ => none, []⟩ putFour = some s ∧
      s.calls .producer = none ∧ s.calls .consumer = none ∧ s.shared.queue.writeIdx = 0 ∧
      (drain ⟨4, 8, .raw 20, 0, 0, 0, 0⟩ 4 s.shared).map Prod.fst = some [8, 9, 10] :=
    ⟨_, rfl, rfl, rfl, rfl, rfl⟩
  have hreachable := Machine.Reachable.exec (.of_init rfl) hs
  have hidle : ∀ t, s.calls t = none := fun t => by cases t <;> assumption
  obtain ⟨xs, s', hdrain, -, -, -, hraw⟩ := drain_raw (by decide) hcreate hreachable hidle
  obtain rfl : xs = [8, 9, 10] :=
    Option.some.inj ((congrArg (Option.map Prod.fst) hdrain).symm.trans hpops)
  exact ⟨_, s, s', hcreate, hreachable, hw, hdrain, hraw⟩

end EventManager.SPSCQueue
