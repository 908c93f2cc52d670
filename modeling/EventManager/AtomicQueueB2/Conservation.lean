import EventManager.AtomicQueueB2.Threads

/-!
# Nothing is lost in the AtomicQueueB2

The elements that the threads have called `push` and `try_push` with are the elements that
`try_push` has left to its caller, the elements that `pop` and `try_pop` have returned, the
elements in the slots that are ready, and the elements that the threads are carrying
(`elements_conserved`).  The two sides are multisets, so that no element comes out twice either.
-/

namespace EventManager.AtomicQueueB2

open Steps Impl

variable {T τ : Type}

/-! ### What is where -/

/-- The elements that the threads have called a push with. -/
def pushed (history : List (Mark τ (Op T) (Res T))) : List T :=
  history.filterMap fun
    | .call _ (.tryPush x) => some x
    | .call _ (.push x) => some x
    | _ => none

/-- The elements that the calls have given to their callers, or left to them. -/
def returned (history : List (Mark τ (Op T) (Res T))) : Multiset T :=
  (history.map fun
    | .ret _ res => res.given
    | .call _ _ => 0).sum

/-- What the slot `i` holds for a pop. -/
def ready (q : AtomicQueueB2 T) (i : ℕ) : Multiset T :=
  if q.states i = .stored then {q.elements i} else 0

/-- What the slots hold for a pop. -/
def stored (q : AtomicQueueB2 T) : Multiset T := ∑ i ∈ Finset.range q.size.toNat, q.ready i

/-- The element that a step of a call is about. -/
def Pc.carried (q : AtomicQueueB2 T) (k : Pc T) : Multiset T :=
  k.hand + k.inSlot.elim 0 fun i => {q.elements i}

/-- The element that a thread is carrying. -/
def carried (q : AtomicQueueB2 T) (c : Option (Op T × Pc T)) : Multiset T :=
  c.elim 0 fun p => p.2.carried q

variable {q q' : AtomicQueueB2 T} {k : Pc T} {r : Pc T ⊕ Res T}

lemma pushed_append (h h' : List (Mark τ (Op T) (Res T))) :
    pushed (h ++ h') = pushed h ++ pushed h' := List.filterMap_append ..

lemma returned_append (h h' : List (Mark τ (Op T) (Res T))) :
    returned (h ++ h') = returned h + returned h' := by
  simp [returned]

lemma stored_update (q q' : AtomicQueueB2 T) (hsize : q'.size = q.size) {i : ℕ}
    (hi : i < q.size.toNat) (hothers : ∀ j ≠ i, q'.ready j = q.ready j) :
    stored q' + q.ready i = stored q + q'.ready i := by
  have hready : q'.ready = Function.update q.ready i (q'.ready i) := by
    funext j
    by_cases hj : j = i
    · subst hj
      simp
    · rw [Function.update_of_ne hj, hothers j hj]
  have hsum := sum_update_add (Finset.mem_range.mpr hi) q.ready id (q'.ready i)
  rw [← hready] at hsum
  simpa only [stored, hsize, id_eq] using hsum

lemma stored_set_state {i : ℕ} (hi : i < q.size.toNat) (st : State) :
    stored { q with states := Function.update q.states i st } + q.ready i =
      stored q + if st = .stored then {q.elements i} else 0 := by
  have hs := stored_update q { q with states := Function.update q.states i st } rfl hi
    fun j hj => by simp [ready, hj]
  rw [hs]
  simp [ready]

lemma stored_set_element {i : ℕ} (hi : i < q.size.toNat) (hst : q.states i ≠ .stored) (x : T) :
    stored { q with elements := Function.update q.elements i x } = stored q := by
  have hs := stored_update q { q with elements := Function.update q.elements i x } rfl hi
    fun j hj => by simp [ready, hj]
  simpa [ready, hst] using hs

/-- The slot of an element that a thread is carrying is one that the thread has claimed. -/
lemma owned_of_inSlot {i : ℕ} (h : k.inSlot = some i) : ∃ st, k.owned = some (st, i) := by
  simp only [Pc.inSlot] at h
  split at h <;> cases h
  · exact ⟨_, rfl⟩
  · exact ⟨_, rfl⟩

/-! ### Steps -/

variable [Inhabited T]

/-- A step writes at most to the slot that its thread has claimed. -/
lemma Change.elements_eq (h : Change q k q' r) {j : ℕ} (hj : ∀ st, k.owned ≠ some (st, j)) :
    q'.elements j = q.elements j := by
  cases h with
  | write trying x i =>
    have hne : j ≠ i := fun hji => hj .storing (by rw [hji]; rfl)
    simp [Function.update_of_ne hne]
  | read trying i =>
    have hne : j ≠ i := fun hji => hj .loading (by rw [hji]; rfl)
    simp [Function.update_of_ne hne]
  | _ => rfl

lemma Change.balance (h : Change q k q' r) (haims : ∀ i, k.aims = some i → i < q.size.toNat)
    (hstate : ∀ st i, k.owned = some (st, i) → q.states i = st) :
    stored q' + r.elim (Pc.carried q') Res.given = stored q + k.carried q := by
  cases h with
  | tickets head tail hk hslot hr hhand =>
    have hcarried : k.carried q = k.hand := by simp [Pc.carried, hslot]
    rw [hcarried, hhand]
    cases r with
    | inl k' => simp [Pc.carried, (hr k' rfl).2.1, stored, ready]
    | inr res => rfl
  | @claimPush trying x i hempty =>
    have hs := stored_set_state (haims i rfl) .storing
    simp only [ready, hempty, reduceCtorEq, if_false, add_zero] at hs
    rw [hs]
    rfl
  | write trying x i =>
    have hst := hstate .storing i rfl
    rw [stored_set_element (haims i rfl) (by simp [hst])]
    simp [Pc.carried, Pc.hand, Pc.inSlot]
  | publish trying i =>
    have hst := hstate .storing i rfl
    have hs := stored_set_state (haims i rfl) .stored
    simp only [ready, hst, reduceCtorEq, if_false, if_true, add_zero] at hs
    rw [hs]
    cases trying <;> simp [Pc.carried, Pc.hand, Pc.inSlot, Res.given]
  | @claimPop trying i hstored =>
    have hs := stored_set_state (haims i rfl) .loading
    simp only [ready, hstored, reduceCtorEq, if_false, if_true, add_zero] at hs
    rw [← hs]
    simp [Pc.carried, Pc.hand, Pc.inSlot]
  | read trying i =>
    have hst := hstate .loading i rfl
    rw [stored_set_element (haims i rfl) (by simp [hst])]
    simp [Pc.carried, Pc.hand, Pc.inSlot]
  | release trying i x =>
    have hst := hstate .loading i rfl
    have hs := stored_set_state (haims i rfl) .empty
    simp only [ready, hst, reduceCtorEq, if_false, add_zero] at hs
    rw [hs]
    cases trying <;> simp [Pc.carried, Pc.hand, Pc.inSlot, Res.given]

/-! ### Runs -/

variable [DecidableEq τ] [Fintype τ] {calls : τ → Option (Op T × Pc T)} {t : τ}

omit [Inhabited T] in
/-- When the thread `t` goes on to `c`, and the elements that the others carry stay, the thread
makes the difference. -/
lemma sum_carried {c : Option (Op T × Pc T)}
    (hothers : ∀ u ≠ t, carried q' (calls u) = carried q (calls u)) :
    ∑ u, carried q' (Function.update calls t c u) + carried q (calls t) =
      ∑ u, carried q (calls u) + carried q' c := by
  have heq : (fun u => carried q' (Function.update calls t c u)) =
      Function.update (fun u => carried q (calls u)) t (carried q' c) := by
    funext u
    by_cases hu : u = t
    · subst hu
      simp
    · rw [Function.update_of_ne hu, Function.update_of_ne hu, hothers u hu]
  have hsum := sum_update_add (Finset.mem_univ t) (fun u => carried q (calls u)) id (carried q' c)
  rw [← heq] at hsum
  exact hsum

/-- What the threads have pushed is somewhere. -/
def Balanced (s : Impl.Threads (AtomicQueueB2 T) τ (Op T) (Res T) (Pc T)) : Prop :=
  (pushed s.history : Multiset T) =
    returned s.history + stored s.shared + ∑ t, carried s.shared (s.calls t)

variable {s s' : Impl.Threads (AtomicQueueB2 T) τ (Op T) (Res T) (Pc T)}

lemma Balanced.call {op : Op T} (h : Balanced s)
    (hs : (threads τ q).next s (.call t op) = some s') : Balanced s' := by
  obtain ⟨hidle, k, hk, rfl⟩ := call_inv hs
  cases hk
  have hsum : ∑ u, carried s.shared (Function.update s.calls t (some (op, start op)) u) +
      carried s.shared (s.calls t) = _ := sum_carried fun _ _ => rfl
  rw [hidle, show carried s.shared none = 0 from rfl, add_zero] at hsum
  simp only [Balanced, pushed_append, returned_append, ← Multiset.coe_add] at h ⊢
  rw [hsum, h]
  cases op <;> simp [pushed, returned, carried, Pc.carried, start, Pc.hand, Pc.inSlot, add_assoc]

lemma Balanced.step {choice : Bool} (hI : Exclusive s.shared s.calls) (h : Balanced s)
    (hs : (threads τ q).next s (.step t choice) = some s') : Balanced s' := by
  obtain ⟨op, k, q', r, hbusy, hr, rfl⟩ := step_inv hs
  have hchange := change_of_step hr
  have hlocal := hchange.balance (hI.aims t op k · hbusy)
    fun st i hk => hI.state t st i (by rw [owned, hbusy]; exact hk)
  -- what another thread carries in a slot stays there
  have hothers : ∀ u ≠ t, carried q' (s.calls u) = carried s.shared (s.calls u) := by
    intro u hu
    cases hcall : s.calls u with
    | none => rfl
    | some p =>
      obtain ⟨op', k'⟩ := p
      simp only [carried, Option.elim_some, Pc.carried]
      cases hslot : k'.inSlot with
      | none => rfl
      | some i =>
        obtain ⟨st, hown⟩ := owned_of_inSlot hslot
        have hne : ∀ st', k.owned ≠ some (st', i) := fun st' hk =>
          hu (hI.distinct u t st st' i (by rw [owned, hcall]; exact hown)
            (by rw [owned, hbusy]; exact hk))
        simp only [Option.elim_some, hchange.elements_eq hne]
  have hsum := sum_carried (c := r.getLeft?.map fun k' => (op, k')) hothers
  rw [hbusy, show carried s.shared (some (op, k)) = k.carried s.shared from rfl] at hsum
  -- what the thread gives to its caller, and what it goes on to carry
  obtain ⟨given, rest, hsplit, hreturned, hrest⟩ : ∃ given rest : Multiset T,
      r.elim (Pc.carried q') Res.given = given + rest ∧
      returned (s.history ++ r.elim (fun _ => []) fun res => [Mark.ret t res]) =
        returned s.history + given ∧
      carried q' (r.getLeft?.map fun k' => (op, k')) = rest := by
    rw [returned_append]
    cases r with
    | inl k' => exact ⟨0, k'.carried q', (zero_add _).symm, rfl, rfl⟩
    | inr res => exact ⟨res.given, 0, (add_zero _).symm, by simp [returned], rfl⟩
  have hpushed : pushed (s.history ++ r.elim (fun _ => []) fun res => [Mark.ret t res]) =
      pushed s.history := by
    rw [pushed_append]
    cases r <;> exact List.append_nil _
  rw [hsplit] at hlocal
  rw [hrest] at hsum
  simp only [Balanced, hpushed, hreturned] at h ⊢
  refine add_right_cancel (b := k.carried s.shared) ?_
  calc (pushed s.history : Multiset T) + k.carried s.shared
      = returned s.history + (stored s.shared + k.carried s.shared) +
          ∑ u, carried s.shared (s.calls u) := by rw [h]; abel
    _ = returned s.history + given + stored q' +
          (∑ u, carried s.shared (s.calls u) + rest) := by rw [← hlocal]; abel
    _ = _ := by rw [← hsum]; abel

/-- **No element is lost, and none comes out twice.**  Whatever any number of threads push and
pop, and in whatever order their loads, exchanges and stores interleave. -/
theorem elements_conserved {size : BitVec 32}
    (h : (threads τ (create T size)).machine.Reachable s) :
    (pushed s.history : Multiset T) =
      returned s.history + stored s.shared + ∑ t, carried s.shared (s.calls t) := by
  refine h.invariant_of_reachable (I := Balanced) ?_ ?_
  · rintro s rfl
    show (0 : Multiset T) = 0 + stored (create T size) + ∑ _ : τ, 0
    have hstored : stored (create T size) = 0 := Finset.sum_eq_zero fun i _ => rfl
    simp [hstored]
  · intro s act s' hs hI hstep
    cases act with
    | call t op => exact hI.call hstep
    | step t choice => exact hI.step (exclusive_of_reachable hs) hstep

/-- One thread has pushed an element, and another one has claimed it. -/
theorem elements_conserved_claimed : ∃ s, (threads Bool (create ℕ 1)).machine.Reachable s ∧
    (s.calls true).map Prod.snd = some (.doPop true (.read 0)) ∧
    ({7} : Multiset ℕ) =
      returned s.history + stored s.shared + ∑ t, carried s.shared (s.calls t) := by
  have hrun : ((threads Bool (create ℕ 1)).machine.exec ⟨create ℕ 1, fun _ => none, []⟩
      [.call false (.push 7), .step false false, .call true .tryPop, .step true false,
        .step false false, .step true false, .step false false, .step true false,
        .step false false, .step true false]).map
      (fun s => ((s.calls true).map Prod.snd, pushed s.history)) =
      some (some (.doPop true (.read 0)), [7]) := by decide +kernel
  obtain ⟨s, hs, heq⟩ := Option.map_eq_some_iff.mp hrun
  obtain ⟨hcalls, hpushed⟩ := Prod.mk.inj heq
  have hreach : (threads Bool (create ℕ 1)).machine.Reachable s :=
    (Machine.Reachable.of_init rfl).exec hs
  have hbalance := elements_conserved hreach
  rw [hpushed] at hbalance
  exact ⟨s, hreach, hcalls, hbalance⟩

end EventManager.AtomicQueueB2
