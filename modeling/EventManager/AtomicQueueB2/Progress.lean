import EventManager.AtomicQueueB2.Linearizable

/-!
# The calls of the AtomicQueueB2 come to an end

A push that has its ticket spins until its slot is empty, and a pop that has its ticket spins
until its slot is ready.  With one thread at each end, and `try_push` for the pushes, the two
threads never spin for each other: from every reachable state the calls in progress can be
completed, without another call (`completes`).
-/

namespace EventManager.AtomicQueueB2

open Steps Impl

variable {T : Type}

/-- An upper bound on the steps that a call has yet to take, when its slot is as it should
be. -/
def Pc.rank : Pc T → ℕ
  | .tryPush (.loadHead _) => 7
  | .tryPush (.loadTail _ _) => 6
  | .tryPush (.exchange _ _) => 5
  | .push _ => 5
  | .doPush _ (.spin _ _) => 4
  | .doPush _ (.claim _ _) => 3
  | .doPush _ (.write _ _) => 2
  | .doPush _ (.publish _) => 1
  | .tryPop .loadTail => 7
  | .tryPop (.loadHead _) => 6
  | .tryPop (.exchange _) => 5
  | .pop => 5
  | .doPop _ (.spin _) => 4
  | .doPop _ (.claim _) => 3
  | .doPop _ (.read _) => 2
  | .doPop _ (.release _ _) => 1
  | .query _ .start => 2
  | .query _ _ => 1

/-- The call `p` can go on to a step that is nearer to its end. -/
def Lowers [Inhabited T] (q : AtomicQueueB2 T) (p : Call T) : Prop :=
  ∃ op t k d q' r, p = some (op, (t, k), d) ∧ step q k false = some (q', r) ∧
    r.elim Pc.rank (fun _ => 0) < k.rank

variable {n len : ℕ} {q : AtomicQueueB2 T} {p c : Call T}
  {taken claimed rest pending xs : List T} {front last : List (State × T)} {x y : T}

/-! ### The slots that the threads wait for -/

lemma RingInv.pending_eq (h : RingInv n q taken claimed rest pending front last xs)
    (hne : pending ≠ []) : ∃ x, pending = [x] :=
  List.length_eq_one_iff.mp <|
    le_antisymm h.pending_length (List.length_pos_iff.mpr hne)

/-- The slot of a push is empty, unless all slots are in use. -/
lemma RingInv.head_empty (h : RingInv n q taken claimed rest [x] front [] xs)
    (hlt : front.length + rest.length < n) : q.states (q.index (q.head - 1)) = .empty := by
  have hwin := h.window
  rw [List.append_nil] at hwin
  have hfree := hwin.free h.start_lt (by simpa using hlt)
  rw [h.index_head]
  simp only [cell] at hfree
  split at hfree
  · rename_i hempty
    exact hempty
  · cases hfree

/-- The slot of a pop is ready, unless its element has yet to be published. -/
lemma RingInv.tail_stored (h : RingInv n q [y] [] (x :: rest) pending [] last xs) :
    q.states (q.index (q.tail - 1)) = .stored := by
  have hhead := h.window.head h.start_lt
  rw [h.index_tail]
  exact (cell_eq_some hhead).1

lemma Pushing.length_le (h : Pushing n len q p pending last) (hne : pending ≠ [])
    (hlast : last = []) (hpush : ∀ x k d, p ≠ some (.push x, k, d)) : len ≤ n := by
  cases h with
  | claim trying x hlen =>
    cases trying with
    | false => exact absurd rfl (hpush x _ _)
    | true => exact hlen rfl
  | spin trying x hlen =>
    cases trying with
    | false => exact absurd rfl (hpush x _ _)
    | true => exact hlen rfl
  | write => cases hlast
  | publish => cases hlast
  | _ => exact absurd rfl hne

lemma Pushing.busy (h : Pushing n len q p pending last) (hne : pending ≠ []) : p ≠ none := by
  rintro rfl
  cases h
  exact hne rfl

/-! ### Steps -/

variable [Inhabited T]

lemma Lowers.of_step {op : Op T} {t : Side} {k : Pc T} {d : Option (Res T)}
    {q' : AtomicQueueB2 T} {r : Pc T ⊕ Res T} (hs : step q k false = some (q', r))
    (hr : r.elim Pc.rank (fun _ => 0) < k.rank) : Lowers q (some (op, (t, k), d)) :=
  ⟨op, t, k, d, q', r, rfl, hs, hr⟩

lemma Popping.taken_eq (h : Popping xs q c taken claimed front) (hne : taken ≠ []) :
    ∃ y, taken = [y] := by
  cases h <;> first | exact ⟨_, rfl⟩ | exact absurd rfl hne

lemma Pushing.lowers (h : Pushing n len q p pending last)
    (hring : RingInv n q taken claimed rest pending front last xs) (hbusy : p ≠ none)
    (hfree : pending ≠ [] → last = [] → q.states (q.index (q.head - 1)) = .empty) :
    Lowers q p := by
  have hindex := hring.index_lt (q.head - 1)
  cases h with
  | idle => exact absurd rfl hbusy
  | loadHead x => exact .of_step rfl (by simp [Pc.rank])
  | loadTail x =>
    refine .of_step rfl ?_
    show Sum.elim _ _ (if _ then _ else _) < _
    split <;> simp [Pc.rank]
  | exchange x hlen =>
    have hs : step q (.tryPush (.exchange x q.head)) false = some ({ q with head := q.head + 1 },
        .inl (.doPush true (.claim x (q.index q.head)))) := by simp [step, tryPush]
    exact .of_step hs (by simp [Pc.rank])
  | fetchAdd x => exact .of_step rfl (by simp [Pc.rank])
  | claim trying x hlen =>
    have hempty := hfree (by simp) rfl
    have hs : step q (.doPush trying (.claim x (q.index (q.head - 1)))) false =
        some ({ q with states := Function.update q.states (q.index (q.head - 1)) .storing },
          .inl (.doPush trying (.write x (q.index (q.head - 1))))) := by
      simp only [step, doPush, if_pos hindex, hempty, and_self, if_true, Option.map_some]
    exact .of_step hs (by simp [Pc.rank])
  | spin trying x hlen =>
    have hempty := hfree (by simp) rfl
    have hs : step q (.doPush trying (.spin x (q.index (q.head - 1)))) false =
        some (q, .inl (.doPush trying (.claim x (q.index (q.head - 1))))) := by
      simp only [step, doPush, if_pos hindex, hempty, ne_eq, not_true_eq_false, if_false,
        Option.map_some]
    exact .of_step hs (by simp [Pc.rank])
  | write trying x z =>
    have hs : step q (.doPush trying (.write x (q.index (q.head - 1)))) false =
        some ({ q with elements := Function.update q.elements (q.index (q.head - 1)) x },
          .inl (.doPush trying (.publish (q.index (q.head - 1))))) := by
      simp only [step, doPush, if_pos hindex, Option.map_some]
    exact .of_step hs (by simp [Pc.rank])
  | publish trying x =>
    have hs : step q (.doPush trying (.publish (q.index (q.head - 1)))) false =
        some ({ q with states := Function.update q.states (q.index (q.head - 1)) .stored },
          .inr (pushResult trying)) := by
      simp only [step, doPush, if_pos hindex, Option.map_some, pushResult]
    exact .of_step hs (by simp [Pc.rank])
  | start what => exact .of_step rfl (by simp [Pc.rank, loadTickets])
  | head what => exact .of_step rfl (by simp [Pc.rank, loadTickets])
  | tail what tail => exact .of_step rfl (by simp [Pc.rank, loadTickets])

lemma Popping.lowers (h : Popping xs q c taken claimed front)
    (hring : RingInv n q taken claimed rest pending front last xs) (hbusy : c ≠ none)
    (hready : taken ≠ [] → front = [] → q.states (q.index (q.tail - 1)) = .stored) :
    Lowers q c := by
  have hindex := hring.index_lt (q.tail - 1)
  cases h with
  | idle => exact absurd rfl hbusy
  | loadTail => exact .of_step rfl (by simp [Pc.rank])
  | loadHead =>
    refine .of_step rfl ?_
    show Sum.elim _ _ (if _ then _ else _) < _
    split <;> simp [Pc.rank]
  | exchange hne =>
    have hs : step q (.tryPop (.exchange q.tail)) false = some ({ q with tail := q.tail + 1 },
        .inl (.doPop true (.claim (q.index q.tail)))) := by simp [step, tryPop]
    exact .of_step hs (by simp [Pc.rank])
  | fetchAdd hne => exact .of_step rfl (by simp [Pc.rank])
  | claim trying y =>
    have hstored := hready (by simp) rfl
    have hs : step q (.doPop trying (.claim (q.index (q.tail - 1)))) false =
        some ({ q with states := Function.update q.states (q.index (q.tail - 1)) .loading },
          .inl (.doPop trying (.read (q.index (q.tail - 1))))) := by
      simp only [step, doPop, if_pos hindex, hstored, and_self, if_true, Option.map_some,
        Sum.map_inl]
    exact .of_step hs (by simp [Pc.rank])
  | spin trying y =>
    have hstored := hready (by simp) rfl
    have hs : step q (.doPop trying (.spin (q.index (q.tail - 1)))) false =
        some (q, .inl (.doPop trying (.claim (q.index (q.tail - 1))))) := by
      simp only [step, doPop, if_pos hindex, hstored, ne_eq, not_true_eq_false, if_false,
        Option.map_some, Sum.map_inl]
    exact .of_step hs (by simp [Pc.rank])
  | read trying y =>
    have hs : step q (.doPop trying (.read (q.index (q.tail - 1)))) false =
        some ({ q with elements := Function.update q.elements (q.index (q.tail - 1)) default },
          .inl (.doPop trying (.release (q.index (q.tail - 1))
            (q.elements (q.index (q.tail - 1)))))) := by
      simp only [step, doPop, if_pos hindex, Option.map_some, Sum.map_inl]
    exact .of_step hs (by simp [Pc.rank])
  | release trying y =>
    have hs : step q (.doPop trying (.release (q.index (q.tail - 1)) y)) false =
        some ({ q with states := Function.update q.states (q.index (q.tail - 1)) .empty },
          .inr (popResult trying y)) := by
      simp only [step, doPop, if_pos hindex, Option.map_some, Sum.map_inr, popResult]
    exact .of_step hs (by simp [Pc.rank])
  | start what => exact .of_step rfl (by simp [Pc.rank, loadTickets])
  | tail what => exact .of_step rfl (by simp [Pc.rank, loadTickets])
  | head what head hne => exact .of_step rfl (by simp [Pc.rank, loadTickets])

/-- The threads do not wait for each other. -/
lemma Inv.lowers {s : Client T} (h : Inv n s p c xs) (hpush : ∀ x k d, p ≠ some (.push x, k, d))
    (hbusy : p ≠ none ∨ c ≠ none) : Lowers s.queue p ∨ Lowers s.queue c := by
  obtain ⟨-, taken, claimed, rest, pending, front, last, hp, hc, hring⟩ := h
  have hlengths := hring.lengths
  by_cases hidle : c = none
  · -- the slot of the push is empty, since a push that tried has found room
    subst hidle
    cases hc
    refine Or.inl (hp.lowers hring (by simpa using hbusy) fun hne hlast => ?_)
    have hlen := hp.length_le hne hlast hpush
    obtain ⟨x, rfl⟩ := hring.pending_eq hne
    subst hlast
    refine hring.head_empty ?_
    simp only [List.length_nil, List.length_singleton] at hlengths ⊢
    omega
  · by_cases hready : taken ≠ [] → front = [] →
      s.queue.states (s.queue.index (s.queue.tail - 1)) = .stored
    · exact Or.inr (hc.lowers hring hidle hready)
    · -- the pop has the ticket of the element that the push has yet to publish
      obtain ⟨htaken, rfl, hstored⟩ : taken ≠ [] ∧ front = [] ∧
          s.queue.states (s.queue.index (s.queue.tail - 1)) ≠ .stored := by
        simpa only [not_forall, exists_prop] using hready
      obtain rfl : claimed = [] := List.length_eq_zero_iff.mp hring.front_length.symm
      obtain ⟨y, rfl⟩ := hc.taken_eq htaken
      cases rest with
      | cons x rest =>
        obtain rfl : y = x := (List.cons.inj hring.parts).1
        exact absurd hring.tail_stored hstored
      | nil =>
        have hparts : y :: xs = pending := hring.parts
        subst hparts
        refine Or.inl (hp.lowers hring (hp.busy (by simp)) fun hne hlast => ?_)
        obtain ⟨x, hx⟩ := hring.pending_eq hne
        rw [hx] at hring
        subst hlast
        have hpos := hring.le
        exact hring.head_empty (show 0 + 0 < n by omega)

/-! ### Runs -/

/-- The steps that the calls in progress have yet to take. -/
def remaining (calls : Side → Option (Op T × Side × Pc T)) : ℕ :=
  (calls .pusher).elim 0 (fun p => p.2.2.rank) + (calls .popper).elim 0 fun p => p.2.2.rank

omit [Inhabited T] in
lemma remaining_update {calls : Side → Option (Op T × Side × Pc T)} {t : Side} {op : Op T}
    {u : Side} {k : Pc T} {r : Pc T ⊕ Res T} (ht : calls t = some (op, u, k))
    (hr : r.elim Pc.rank (fun _ => 0) < k.rank) :
    remaining (Function.update calls t
      ((r.map (Prod.mk u) id).getLeft?.map fun k' => (op, k'))) < remaining calls := by
  cases t <;> cases r <;> simp_all [remaining]

/-- The thread is in no `push`. -/
def NoPush (calls : Side → Option (Op T × Side × Pc T)) : Prop :=
  ∀ x k, calls .pusher ≠ some (.push x, k)

omit [Inhabited T] in
lemma NoPush.update {calls : Side → Option (Op T × Side × Pc T)} (h : NoPush calls) {t : Side}
    {op : Op T} {k : Side × Pc T} (ht : calls t = some (op, k)) (k' : Option (Side × Pc T)) :
    NoPush (Function.update calls t (k'.map fun k' => (op, k'))) := by
  intro x k₁ heq
  cases t with
  | popper => exact h x k₁ heq
  | pusher =>
    rw [Function.update_self] at heq
    obtain ⟨k₂, -, heq⟩ := Option.map_eq_some_iff.mp heq
    exact h x k (ht.trans (by rw [(Prod.mk.inj heq).1]))

lemma exists_step {size : BitVec 32} (hsize : (create T size).size.toNat ≤ 2 ^ 30)
    {s : Threads (Client T) Side (Op T) (Res T) (Side × Pc T)}
    (hs : (twoThreads (create T size)).machine.Reachable s) (hpush : NoPush s.calls)
    (hbusy : ¬ ∀ u, s.calls u = none) :
    ∃ a s', (∃ u, a = .step u false) ∧ (twoThreads (create T size)).machine.next s a = some s' ∧
      NoPush s'.calls ∧ remaining s'.calls < remaining s.calls := by
  obtain ⟨ph, a, -, hv⟩ := (refines hsize).reachable hs
  have hnone : ∀ u, ph u = none → s.calls u = none := fun u hu => by rw [hv.calls u, hu]; rfl
  have hphase : ph .pusher ≠ none ∨ ph .popper ≠ none := by
    by_contra hidle
    push Not at hidle
    exact hbusy fun u => by cases u <;> exact hnone _ (by simp [hidle])
  have hphasePush : ∀ x k d, ph .pusher ≠ some (.push x, k, d) := by
    intro x k d hph
    refine hpush x k ?_
    rw [hv.calls, hph]
    rfl
  obtain ⟨u, op, k, q', r, hu, hr, hlt⟩ : ∃ u op k q' r, s.calls u = some (op, u, k) ∧
      step s.shared.queue k false = some (q', r) ∧ r.elim Pc.rank (fun _ => 0) < k.rank := by
    rcases hv.rel.lowers hphasePush hphase with hlow | hlow
    · obtain ⟨op, t, k, d, q', r, hph, hr, hlt⟩ := hlow
      have hrel := hv.rel
      rw [hph] at hrel
      obtain rfl := hrel.side_pusher
      exact ⟨.pusher, op, k, q', r, by rw [hv.calls, hph]; rfl, hr, hlt⟩
    · obtain ⟨op, t, k, d, q', r, hph, hr, hlt⟩ := hlow
      have hrel := hv.rel
      rw [hph] at hrel
      obtain rfl := hrel.side_popper
      exact ⟨.popper, op, k, q', r, by rw [hv.calls, hph]; rfl, hr, hlt⟩
  exact ⟨.step u false, _, ⟨u, rfl⟩, next_step hu (Option.map_eq_some_iff.mpr ⟨_, hr, rfl⟩),
    hpush.update hu _, remaining_update hu hlt⟩

/-- **The calls come to an end.**  Take a queue with one thread at each end, in any state that it
can reach in which no `push` is in progress.  The `try_push`, the `try_pop` or the `pop`, and the
questions that are in progress can all return, without another call: no thread spins for a slot
that only a later call would free. -/
theorem completes (T : Type) [Inhabited T] {size : BitVec 32}
    (hsize : ¬ (2 ^ 30 < size.toNat ∧ size.toNat ≤ 2 ^ 31))
    {s : Threads (Client T) Side (Op T) (Res T) (Side × Pc T)}
    (hs : (twoThreads (create T size)).machine.Reachable s)
    (hpush : ∀ x k, s.calls .pusher ≠ some (.push x, k)) :
    ∃ tr t, (twoThreads (create T size)).machine.Run s tr t ∧
      (∀ p ∈ tr, ∃ u, p.2 = .step u false) ∧ ∀ u, t.calls u = none := by
  have hnopush : NoPush s.calls := hpush
  obtain ⟨tr, t, hrun, htr, -, ht⟩ := hs.exists_run_of_rank (P := fun s => NoPush s.calls)
    (G := fun s => ∀ u, s.calls u = none) (C := fun _ a => ∃ u, a = .step u false)
    (fun s => remaining s.calls) (fun _ => exists_step (size_create_le hsize)) hnopush
  exact ⟨tr, t, hrun, htr, ht⟩

/-- A pop that spins for the element of a push. -/
theorem completes_of_spin :
    ∃ s, (twoThreads (create ℕ 1)).machine.Reachable s ∧
      s.calls .popper = some (.tryPop, .popper, .doPop true (.spin 0)) ∧
      ∃ tr t, (twoThreads (create ℕ 1)).machine.Run s tr t ∧
        (∀ p ∈ tr, ∃ u, p.2 = .step u false) ∧ ∀ u, t.calls u = none := by
  have hrun : ((twoThreads (create ℕ 1)).machine.exec ⟨⟨create ℕ 1, false⟩, fun _ => none, []⟩
      [.call .pusher (.tryPush 7), .step .pusher false, .step .pusher false, .step .pusher false,
        .call .popper .tryPop, .step .popper false, .step .popper false, .step .popper false,
        .step .popper false]).map (fun s => ((s.calls .pusher).map Prod.fst, s.calls .popper)) =
      some (some (.tryPush 7), some (.tryPop, .popper, .doPop true (.spin 0))) := by
    decide +kernel
  obtain ⟨s, hs, heq⟩ := Option.map_eq_some_iff.mp hrun
  obtain ⟨hpusher, hpopper⟩ := Prod.mk.inj heq
  have hreach : (twoThreads (create ℕ 1)).machine.Reachable s :=
    (Machine.Reachable.of_init rfl).exec hs
  refine ⟨s, hreach, hpopper, completes ℕ (by decide) hreach fun x k hpush => ?_⟩
  rw [hpush] at hpusher
  cases hpusher

end EventManager.AtomicQueueB2
