import EventManager.PipedEvent.Basic

/-!
# Threads that fire and consume one event

The machine `signals ι`: any number of threads, one for every element of `ι`, that call
`Fire`, and one thread that calls `Consume`, in any interleaving of the steps of their
calls.

With one firing thread the event keeps flag and pipe in agreement
(`signal_protocol`).  With several it does not: two of them may find the flag unset
before either sets it, and both write (`not_coalesces`).  It does exactly as long as no `Fire`
stores into a flag that is already set (`coalesces_iff`).
-/

namespace EventManager

open Steps

/-- One event, the calls of `Fire` in progress and the call of `Consume` in progress. -/
structure Signals (ι : Type) where
  /-- The event. -/
  ev : PipedEvent
  /-- The call of `Fire` that a thread is in. -/
  fire : ι → Option FirePc
  /-- The call of `Consume` that the consuming thread is in. -/
  consume : Option ConsumePc

namespace Signals

/-- The steps of the threads: to call `Fire` or `Consume`, or to go on in the call. -/
inductive Action (ι : Type)
  | callFire (i : ι)
  | fire (i : ι)
  | callConsume
  | consume
deriving DecidableEq

/-- A fresh event that no thread uses. -/
def start (ι : Type) (fds : ℤ × ℤ) : Signals ι := ⟨.create fds, fun _ => none, none⟩

variable {ι : Type} [DecidableEq ι]

/-- The effect of a step.  The system calls succeed. -/
def next (s : Signals ι) : Action ι → Option (Signals ι)
  | .callFire i =>
    match s.fire i with
    | none => some { s with fire := Function.update s.fire i (some .load) }
    | some _ => none
  | .fire i =>
    match s.fire i with
    | none => none
    | some pc =>
      some { s with
        ev := (s.ev.fire true pc).1
        fire := Function.update s.fire i (s.ev.fire true pc).2 }
  | .callConsume =>
    match s.consume with
    | none => some { s with consume := some .load }
    | some _ => none
  | .consume =>
    match s.consume with
    | none => none
    | some pc => (s.ev.consume true pc).map fun p => { s with ev := p.1, consume := p.2 }

end Signals

/-- Any number of firing threads and one consuming thread, started on a fresh event with
nonzero descriptors. -/
def signals (ι : Type) [DecidableEq ι] : Machine (Signals ι) (Signals.Action ι) where
  init s := ∃ fds : ℤ × ℤ, fds.1 ≠ 0 ∧ fds.2 ≠ 0 ∧ s = Signals.start ι fds
  next := Signals.next

namespace Signals

variable {ι : Type} [DecidableEq ι]

lemma next_cases {s t : Signals ι} {a : Action ι} (h : (signals ι).next s a = some t) :
    (∃ i, a = .callFire i ∧ s.fire i = none ∧
      t = { s with fire := Function.update s.fire i (some .load) }) ∨
    (∃ i pc, a = .fire i ∧ s.fire i = some pc ∧
      t = { s with
        ev := (s.ev.fire true pc).1
        fire := Function.update s.fire i (s.ev.fire true pc).2 }) ∨
    (a = .callConsume ∧ s.consume = none ∧ t = { s with consume := some .load }) ∨
    (∃ pc ev' pc', a = .consume ∧ s.consume = some pc ∧
      s.ev.consume true pc = some (ev', pc') ∧ t = { s with ev := ev', consume := pc' }) := by
  cases a with
  | callFire i =>
    simp only [signals, next] at h
    split at h
    · exact Or.inl ⟨i, rfl, ‹_›, (Option.some.inj h).symm⟩
    · cases h
  | fire i =>
    simp only [signals, next] at h
    split at h
    · cases h
    · exact Or.inr (Or.inl ⟨i, _, rfl, ‹_›, (Option.some.inj h).symm⟩)
  | callConsume =>
    simp only [signals, next] at h
    split at h
    · exact Or.inr (Or.inr (Or.inl ⟨rfl, ‹_›, (Option.some.inj h).symm⟩))
    · cases h
  | consume =>
    simp only [signals, next] at h
    split at h
    · cases h
    · obtain ⟨⟨ev', pc'⟩, hc, ht⟩ := Option.map_eq_some_iff.mp h
      exact Or.inr (Or.inr (Or.inr ⟨_, ev', pc', rfl, ‹_›, hc, ht.symm⟩))

/-! ### One firing thread -/

lemma signalInv_of_reachable {s : Signals Unit} (h : (signals Unit).Reachable s) :
    s.ev.SignalInv (s.fire ()) s.consume := by
  refine h.invariant (I := fun s => s.ev.SignalInv (s.fire ()) s.consume) ?_ ?_
  · rintro s ⟨fds, hsrc, -, rfl⟩
    exact .create hsrc
  · intro s a t hI hs
    rcases next_cases hs with ⟨⟨⟩, -, hf, rfl⟩ | ⟨⟨⟩, pc, -, hf, rfl⟩ | ⟨-, hc, rfl⟩ |
      ⟨pc, ev', pc', -, hc, hstep, rfl⟩
    · rw [hf] at hI
      simpa using hI.callFire
    · rw [hf] at hI
      simpa using hI.fire
    · rw [hc] at hI
      exact hI.callConsume
    · rw [hc] at hI
      exact hI.consume hstep

end Signals

/-- **The signal protocol.**  One thread calls `Fire` and one thread calls `Consume`, any
number of times and in any interleaving.  The pipe holds at most one byte; a `Consume`
that is about to read finds a byte or a `Fire` that is about to write it; and when no
call is in progress the flag is set exactly when the pipe holds a byte. -/
theorem signal_protocol {s : Signals Unit} (h : (signals Unit).Reachable s) :
    s.ev.bytes ≤ 1 ∧
    (s.consume = some .read → s.ev.Readable ∨ s.fire () = some .write) ∧
    (s.fire () = none → s.consume = none → (s.ev.fired = true ↔ s.ev.Readable)) := by
  have hI := Signals.signalInv_of_reachable h
  refine ⟨hI.balanced.bytes_le_one, fun hc => ?_, fun hf hc => ?_⟩
  · by_cases hf : s.fire () = some .write
    · exact Or.inr hf
    · have hfired : s.ev.fired = true := hI.balanced.reading (Or.inl hc)
      exact Or.inl (hI.readable hf (by simp [hc]) hfired)
  · have hb := hI.balanced
    rw [hf, PipedEvent.aboutToWrite_none] at hb
    rw [hb.fired_iff (by simp [hc])]
    have hle := hb.bytes_le_one
    simp only [PipedEvent.Readable]
    omega

/-- A run in which the reader waits for the writer: `Consume` reaches its read while the
`Fire` that set the flag has still to write. -/
theorem signal_protocol_run :
    ∃ s, (signals Unit).Reachable s ∧ s.consume = some .read ∧
      (s.ev.Readable ∨ s.fire () = some .write) := by
  have h₀ : (signals Unit).Reachable (Signals.start Unit (3, 4)) :=
    .of_init ⟨(3, 4), by decide, by decide, rfl⟩
  obtain ⟨s, hs, hc⟩ : ∃ s, (signals Unit).exec (Signals.start Unit (3, 4))
      [.callFire (), .fire (), .fire (), .callConsume, .consume] = some s ∧
      s.consume = some .read := ⟨_, rfl, rfl⟩
  exact ⟨s, h₀.exec hs, hc, (signal_protocol (h₀.exec hs)).2.1 hc⟩

/-! ### Several firing threads -/

namespace Signals

variable {ι : Type} [DecidableEq ι]

/-- The step writes a byte. -/
def isWrite : Signals ι × Action ι → Bool
  | (s, .fire i) => s.fire i = some .write
  | _ => false

/-- The step completes a read. -/
def isRead : Signals ι × Action ι → Bool
  | (s, .consume) => s.consume = some .read
  | _ => false

/-- Between a completed read and the next one at most one byte is written. -/
def OneWritePerRead (tr : List (Signals ι × Action ι)) : Prop :=
  ∀ pre r₁ mid r₂ post, tr = pre ++ r₁ :: mid ++ r₂ :: post → isRead r₁ → isRead r₂ →
    (∀ p ∈ mid, ¬ isRead p) → (mid.filter isWrite).length ≤ 1

/-- No call is in progress. -/
def Quiet (s : Signals ι) : Prop := (∀ i, s.fire i = none) ∧ s.consume = none

/-- A `Consume` that runs from here alone and finds the flag set leaves the pipe empty. -/
def DrainsPipe (s : Signals ι) : Prop :=
  s.Quiet → s.ev.fired = true →
    ∀ u, (signals ι).exec s [.callConsume, .consume, .consume, .consume] = some u →
      u.ev.bytes = 0

/-- A readable event has its flag set, when no call is in progress. -/
def NeverStale (s : Signals ι) : Prop := s.Quiet → s.ev.fired = false → s.ev.bytes = 0

/-- Concurrent signals coalesce in the run with the trace `tr` that ends in `t`. -/
structure Coalesces (tr : List (Signals ι × Action ι)) (t : Signals ι) : Prop where
  one : OneWritePerRead tr
  drains : DrainsPipe t
  fresh : NeverStale t

/-- The step is not a store of `Fire` into a flag that is already set. -/
def FreshStore (s : Signals ι) (a : Action ι) : Prop :=
  ∀ i, a = .fire i → s.fire i = some .store → s.ev.fired = false

instance [Fintype ι] (s : Signals ι) (a : Action ι) : Decidable (FreshStore s a) :=
  inferInstanceAs (Decidable (∀ i, a = .fire i → s.fire i = some .store →
    s.ev.fired = false))

/-- The number of threads that are about to write. -/
def writers [Fintype ι] (s : Signals ι) : ℕ := ∑ i, PipedEvent.aboutToWrite (s.fire i)

variable [Fintype ι]

lemma writers_update (s : Signals ι) (i : ι) (f : Option FirePc) (ev : PipedEvent) :
    writers { s with ev := ev, fire := Function.update s.fire i f } +
      PipedEvent.aboutToWrite (s.fire i) = writers s + PipedEvent.aboutToWrite f :=
  sum_update_add (Finset.mem_univ i) s.fire PipedEvent.aboutToWrite f

/-- No step takes the surplus away, and only a store into a set flag adds to it. -/
lemma surplus_step {s t : Signals ι} {a : Action ι} {k : ℕ}
    (hI : s.ev.Surplus k s.writers s.consume) (h : (signals ι).next s a = some t) :
    ∃ k', t.ev.Surplus k' t.writers t.consume ∧ k ≤ k' ∧ (k' = k ↔ FreshStore s a) := by
  rcases next_cases h with ⟨i, rfl, hf, rfl⟩ | ⟨i, pc, rfl, hf, rfl⟩ | ⟨rfl, hc, rfl⟩ |
    ⟨pc, ev', pc', rfl, hc, hstep, rfl⟩
  · have hw := writers_update s i (some .load) s.ev
    simp only [hf, PipedEvent.aboutToWrite_none, PipedEvent.aboutToWrite_load,
      Nat.add_zero] at hw
    exact ⟨k, by rwa [hw], le_rfl, by simp [FreshStore]⟩
  · have hw := writers_update s i (s.ev.fire true pc).2 (s.ev.fire true pc).1
    rw [hf] at hw
    cases pc with
    | load =>
      have hzero : PipedEvent.aboutToWrite (s.ev.fire true .load).2 = 0 := by
        simp only [PipedEvent.fire]
        split <;> rfl
      rw [hzero, PipedEvent.aboutToWrite_load, Nat.add_zero, Nat.add_zero] at hw
      rw [hw]
      exact ⟨k, hI, le_rfl, by simp [FreshStore, hf]⟩
    | store =>
      simp only [PipedEvent.fire, PipedEvent.aboutToWrite_store,
        PipedEvent.aboutToWrite_write, Nat.add_zero] at hw ⊢
      rw [hw]
      cases hfired : s.ev.fired with
      | false => exact ⟨k, hI.store hfired, le_rfl, by simp [FreshStore, hfired]⟩
      -- a second store before the flag is cleared, and so a second byte
      | true => exact ⟨k + 1, hI.store_set hfired, by omega, by simp [FreshStore, hf, hfired]⟩
    | write =>
      simp only [PipedEvent.fire, PipedEvent.aboutToWrite_none,
        PipedEvent.aboutToWrite_write, Nat.add_zero] at hw ⊢
      rw [← hw] at hI
      exact ⟨k, hI.write, le_rfl, by simp [FreshStore, hf]⟩
  · rw [hc] at hI
    exact ⟨k, hI.call, le_rfl, by simp [FreshStore]⟩
  · rw [hc] at hI
    exact ⟨k, hI.consume hstep, le_rfl, by simp [FreshStore]⟩

/-- After a run there is a surplus exactly when some `Fire` has stored into a set flag. -/
lemma surplus_run {s t : Signals ι} {tr : List (Signals ι × Action ι)}
    (hs : s.ev.Surplus 0 s.writers s.consume) (h : (signals ι).Run s tr t) :
    ∃ k, t.ev.Surplus k t.writers t.consume ∧ (k = 0 ↔ ∀ p ∈ tr, FreshStore p.1 p.2) := by
  induction h with
  | nil => exact ⟨0, hs, by simp⟩
  | @snoc t u tr a _ ha ih =>
    obtain ⟨k, hk, hzero⟩ := ih
    obtain ⟨k', hk', hle, hsame⟩ := surplus_step hk ha
    refine ⟨k', hk', ?_⟩
    rw [List.forall_mem_append, ← hzero, List.forall_mem_singleton, ← hsame]
    omega

lemma balanced_run {s t : Signals ι} {tr : List (Signals ι × Action ι)}
    (hs : s.ev.Surplus 0 s.writers s.consume) (h : (signals ι).Run s tr t)
    (ha : ∀ p ∈ tr, FreshStore p.1 p.2) : t.ev.Surplus 0 t.writers t.consume := by
  obtain ⟨k, hk, hzero⟩ := surplus_run hs h
  rwa [hzero.mpr ha] at hk

omit [DecidableEq ι] in
lemma balanced_start (fds : ℤ × ℤ) :
    (start ι fds).ev.Surplus 0 (start ι fds).writers (start ι fds).consume := by
  have hw : (start ι fds).writers = 0 := by simp [writers, start]
  rw [hw]
  exact .create fds

omit [Fintype ι] in
lemma bytes_of_run {s t : Signals ι} {tr : List (Signals ι × Action ι)}
    (h : (signals ι).Run s tr t) (hr : ∀ p ∈ tr, ¬ isRead p) :
    t.ev.bytes = s.ev.bytes + (tr.filter isWrite).length := by
  induction h with
  | nil => simp
  | @snoc t u tr a _ hstep ih =>
    have ih' := ih fun p hp => hr p (by simp [hp])
    have hlast : ¬ isRead (t, a) := hr (t, a) (by simp)
    rw [List.filter_append, List.length_append, ← Nat.add_assoc, ← ih']
    rcases next_cases hstep with ⟨i, rfl, hf, rfl⟩ | ⟨i, pc, rfl, hf, rfl⟩ | ⟨rfl, hc, rfl⟩ |
      ⟨pc, ev', pc', rfl, hc, hcons, rfl⟩
    · simp [isWrite]
    · cases pc <;> simp [isWrite, hf, PipedEvent.fire]
    · simp [isWrite]
    · rcases PipedEvent.consume_cases hcons with ⟨-, rfl, -⟩ | ⟨-, rfl, -⟩ | ⟨rfl, rfl, -⟩ |
        ⟨-, rfl, -⟩
      · simp [isWrite]
      · simp [isWrite]
      · exact absurd hc (by simpa [isRead] using hlast)
      · simp [isWrite]

lemma bytes_of_read {s t : Signals ι} {a : Action ι}
    (hI : s.ev.Surplus 0 s.writers s.consume) (hr : isRead (s, a))
    (h : (signals ι).next s a = some t) : t.ev.bytes = 0 := by
  rcases next_cases h with ⟨i, rfl, -⟩ | ⟨i, pc, rfl, -⟩ | ⟨rfl, -⟩ |
    ⟨pc, ev', pc', rfl, hc, hcons, rfl⟩
  · simp [isRead] at hr
  · simp [isRead] at hr
  · simp [isRead] at hr
  · have hread : s.consume = some .read := by simpa [isRead] using hr
    obtain rfl : pc = .read := Option.some.inj (hc.symm.trans hread)
    have hle := hI.bytes_le_one
    rcases PipedEvent.consume_cases hcons with ⟨hpc, -⟩ | ⟨hpc, -⟩ | ⟨-, rfl, -⟩ | ⟨hpc, -⟩
    · cases hpc
    · cases hpc
    · simp only
      omega
    · cases hpc

lemma oneWritePerRead {s t : Signals ι} {tr : List (Signals ι × Action ι)}
    (hs : s.ev.Surplus 0 s.writers s.consume) (h : (signals ι).Run s tr t)
    (ha : ∀ p ∈ tr, FreshStore p.1 p.2) : OneWritePerRead tr := by
  rintro pre r₁ mid r₂ post rfl hr₁ hr₂ hmid
  obtain ⟨v, hpremid, hlast⟩ := h.split_append
  obtain rfl := hlast.cons_inv.1
  have hI₂ := balanced_run hs hpremid fun p hp => ha p (List.mem_append_left _ hp)
  obtain ⟨u, hpre, hmidrun⟩ := hpremid.split_append
  obtain ⟨rfl, w, hread, hrest⟩ := hmidrun.cons_inv
  have hI₁ := balanced_run hs hpre fun p hp =>
    ha p (List.mem_append_left _ (List.mem_append_left _ hp))
  have hbytes := bytes_of_run hrest hmid
  rw [bytes_of_read hI₁ hr₁ hread, Nat.zero_add] at hbytes
  rw [← hbytes]
  exact hI₂.bytes_le_one

omit [DecidableEq ι] in
lemma fired_iff_of_quiet {s : Signals ι} (hI : s.ev.Surplus 0 s.writers s.consume)
    (hq : s.Quiet) : s.ev.fired = true ↔ s.ev.bytes = 1 := by
  have hw : s.writers = 0 := by simp [writers, hq.1]
  rw [hw] at hI
  exact hI.fired_iff (by simp [hq.2])

lemma drainsPipe {s : Signals ι} (hI : s.ev.Surplus 0 s.writers s.consume) :
    DrainsPipe s := by
  intro hq hf u hu
  have hbytes : s.ev.bytes = 1 := (fired_iff_of_quiet hI hq).mp hf
  by_cases hsrc : s.ev.fds.1 = 0
  · simp [Machine.exec, signals, next, hq.2, PipedEvent.consume, hsrc] at hu
  · simp [Machine.exec, signals, next, hq.2, PipedEvent.consume, hsrc, hf, hbytes] at hu
    rw [← hu]

omit [DecidableEq ι] in
lemma neverStale {s : Signals ι} (hI : s.ev.Surplus 0 s.writers s.consume) :
    NeverStale s := by
  intro hq hf
  have hle := hI.bytes_le_one
  have hne : s.ev.bytes ≠ 1 := fun hb => by
    rw [← fired_iff_of_quiet hI hq, hf] at hb
    cases hb
  omega

omit [Fintype ι] in
lemma fds_run {s t : Signals ι} {tr : List (Signals ι × Action ι)} (h : (signals ι).Run s tr t) :
    t.ev.fds = s.ev.fds := by
  refine h.invariant (I := fun u => u.ev.fds = s.ev.fds) (C := fun _ _ => True) ?_
    (fun _ _ => trivial) rfl
  intro u a v hu _ hs
  rcases next_cases hs with ⟨i, -, -, rfl⟩ | ⟨i, pc, -, -, rfl⟩ | ⟨-, -, rfl⟩ |
    ⟨pc, ev', pc', -, -, hstep, rfl⟩
  · exact hu
  · simpa using hu
  · exact hu
  · exact (PipedEvent.consume_fds hstep).trans hu

/-- In a quiet state a surplus shows: there is a byte without a flag, or a second byte that the
next `Consume` leaves in the pipe. -/
lemma eq_zero_of_coalesces {s : Signals ι} {k : ℕ} (hI : s.ev.Surplus k s.writers s.consume)
    (hsrc : s.ev.fds.1 ≠ 0) (hq : s.Quiet) (hdrains : DrainsPipe s) (hfresh : NeverStale s) :
    k = 0 := by
  have hw : s.writers = 0 := by simp [writers, hq.1]
  rw [hw] at hI
  have hbytes := hI.bytes_eq (by simp [hq.2])
  cases hf : s.ev.fired with
  | false =>
    have hempty := hfresh hq hf
    rw [hf] at hbytes
    simp only [Bool.false_eq_true, if_false] at hbytes
    omega
  | true =>
    rw [if_pos hf] at hbytes
    have hne : s.ev.bytes ≠ 0 := by omega
    have hleft : s.ev.bytes - 1 = 0 := by
      refine hdrains hq hf
        { s with ev := { s.ev with bytes := s.ev.bytes - 1, fired := false }, consume := none } ?_
      simp [Machine.exec, signals, next, hq.2, PipedEvent.consume, hsrc, hf, hne]
    omega

end Signals

/-- **Coalescing.**  For any number of firing threads: in a run in which no `Fire` stores into a
flag that is already set, at most one byte is written between two reads, and a `Consume` on its
own leaves the pipe empty; and in a run that ends with no call in progress only then. -/
theorem coalesces_iff {ι : Type} [DecidableEq ι] [Fintype ι] {s t : Signals ι}
    {tr : List (Signals ι × Signals.Action ι)} (hs : (signals ι).init s)
    (h : (signals ι).Run s tr t) :
    ((∀ p ∈ tr, Signals.FreshStore p.1 p.2) → Signals.Coalesces tr t) ∧
    (t.Quiet → Signals.Coalesces tr t → ∀ p ∈ tr, Signals.FreshStore p.1 p.2) := by
  obtain ⟨fds, hsrc, -, rfl⟩ := hs
  have h₀ := Signals.balanced_start (ι := ι) fds
  constructor
  · intro ha
    have hI := Signals.balanced_run h₀ h ha
    exact ⟨Signals.oneWritePerRead h₀ h ha, Signals.drainsPipe hI, Signals.neverStale hI⟩
  · intro hq hcoalesces
    obtain ⟨k, hI, hzero⟩ := Signals.surplus_run h₀ h
    have hopened : t.ev.fds.1 ≠ 0 := by rwa [Signals.fds_run h]
    exact hzero.mp (Signals.eq_zero_of_coalesces hI hopened hq hcoalesces.drains hcoalesces.fresh)

/-- Two threads fire one after the other, and the second one finds the flag set. -/
theorem coalesces_iff_two :
    Signals.Coalesces
      ((signals Bool).trace (Signals.start Bool (3, 4))
        [.callFire false, .fire false, .fire false, .callFire true, .fire true, .fire false])
      ⟨⟨(3, 4), true, 1⟩, fun _ => none, none⟩ := by
  refine (coalesces_iff (s := Signals.start Bool (3, 4))
    ⟨(3, 4), by decide, by decide, rfl⟩ (Machine.run_of_exec ?_)).1 (by decide)
  have hidle : ∀ f : Bool → Option FirePc, f false = none → f true = none →
      f = fun _ => none := fun f h₁ h₂ => funext fun b => by cases b <;> assumption
  exact congrArg some (congrArg (Signals.mk _ · _) (hidle _ rfl rfl))

/-- A signal that is fired and consumed, and then two threads that both find the flag
unset before either of them sets it. -/
def racingFires : List (Signals.Action Bool) :=
  [.callFire false, .fire false, .fire false, .fire false,
    .callConsume, .consume, .consume, .consume,
    .callFire false, .callFire true, .fire false, .fire true,
    .fire false, .fire false, .fire true, .fire true,
    .callConsume, .consume, .consume, .consume]

/-- Concurrent signals do not coalesce in general. -/
theorem not_coalesces :
    ¬ ∀ (s : Signals Bool) (tr : List (Signals Bool × Signals.Action Bool)) (t : Signals Bool),
      (signals Bool).init s → (signals Bool).Run s tr t → Signals.Coalesces tr t := by
  intro hall
  have hinit : (signals Bool).init (Signals.start Bool (3, 4)) :=
    ⟨(3, 4), by decide, by decide, rfl⟩
  obtain ⟨t, ht⟩ : ∃ t, (signals Bool).exec (Signals.start Bool (3, 4)) racingFires = some t :=
    ⟨_, rfl⟩
  have hone := (hall _ _ t hinit (Machine.run_of_exec ht)).one
  -- both bytes are written between the two reads, which are the steps 6 and 18
  let tr := (signals Bool).trace (Signals.start Bool (3, 4)) racingFires
  have htwo : ((tr.extract 7 18).filter Signals.isWrite).length ≤ 1 :=
    hone (tr.take 6) tr[6] (tr.extract 7 18) tr[18] (tr.drop 19) rfl rfl rfl (by decide)
  exact absurd htwo (by decide)

end EventManager
