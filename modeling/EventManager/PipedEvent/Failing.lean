import EventManager.PipedEvent.Basic

/-!
# A PipedEvent whose system calls fail

`Fire` and `Consume` change the flag whether or not their write or read succeeds.  A write
that fails leaves the flag set over an empty pipe, so that nobody writes again; a read that
fails leaves a byte in the pipe of an event that is not set.  The machine `failing` is one
firing and one consuming thread, with any calls failing, and it counts the failures: an event
stays sound exactly as long as as many reads as writes have failed (`survives_iff`).
-/

namespace EventManager

open Steps Machine PipedEvent

/-- One event, a call of `Fire`, a call of `Consume`, and the failures so far. -/
structure Failing where
  /-- The event. -/
  ev : PipedEvent
  /-- The call of `Fire` in progress. -/
  fire : Option FirePc
  /-- The call of `Consume` in progress. -/
  consume : Option ConsumePc
  /-- The writes that have failed. -/
  failedWrites : ℕ
  /-- The reads that have failed. -/
  failedReads : ℕ

namespace Failing

/-- The steps of the two threads; `ok` says whether the system call of the step, if there is
one, succeeds. -/
inductive Action
  | callFire
  | fire (ok : Bool)
  | callConsume
  | consume (ok : Bool)
deriving DecidableEq

/-- No system call fails in the step. -/
def Action.Succeeds : Action → Prop
  | .fire ok => ok = true
  | .consume ok => ok = true
  | _ => True

/-- A fresh event. -/
def start (fds : ℤ × ℤ) : Failing := ⟨.create fds, none, none, 0, 0⟩

/-- The effect of a step. -/
def next (s : Failing) : Action → Option Failing
  | .callFire =>
    match s.fire with
    | none => some { s with fire := some .load }
    | some _ => none
  | .fire ok =>
    match s.fire with
    | none => none
    | some pc => some { s with
        ev := (s.ev.fire ok pc).1
        fire := (s.ev.fire ok pc).2
        failedWrites := s.failedWrites + if pc = .write ∧ ok = false then 1 else 0 }
  | .callConsume =>
    match s.consume with
    | none => some { s with consume := some .load }
    | some _ => none
  | .consume ok =>
    match s.consume with
    | none => none
    | some pc => (s.ev.consume ok pc).map fun r => { s with
        ev := r.1
        consume := r.2
        failedReads := s.failedReads + if pc = .read ∧ ok = false then 1 else 0 }

end Failing

/-- One firing and one consuming thread, on a fresh event with nonzero descriptors. -/
def failing : Machine Failing Failing.Action where
  init s := ∃ fds : ℤ × ℤ, fds.1 ≠ 0 ∧ fds.2 ≠ 0 ∧ s = .start fds
  next := Failing.next

namespace Failing

/-- What the event owes its users: with no call in progress the flag says whether there is a
byte, and a `Consume` does not wait for a byte that nobody is about to write. -/
structure Survives (s : Failing) : Prop where
  agree : s.fire = none → s.consume = none → (s.ev.fired = true ↔ s.ev.Readable)
  wakes : s.consume = some .read → s.ev.Readable ∨ s.fire = some .write

/-! ### The balance with failures -/

/-- The bytes that are in the pipe, about to be written, or not written because of one of the
`fw` failures, are those that the flag promises and those not read because of one of the `fr`
failures. -/
structure Counted (ev : PipedEvent) (f : Option FirePc) (c : Option ConsumePc) (fw fr : ℕ) :
    Prop where
  opened : ev.fds.1 ≠ 0
  reading : c = some .read ∨ c = some .store → ev.fired = true
  storing : f = some .store → ev.fired = false
  count : ev.bytes + aboutToWrite f + fw = ev.promised c + fr

variable {ev ev' : PipedEvent} {f : Option FirePc} {c : Option ConsumePc} {fw fr : ℕ}

lemma counted_create {fds : ℤ × ℤ} (h : fds.1 ≠ 0) : Counted (.create fds) none none 0 0 :=
  ⟨h, by simp, by simp, rfl⟩

lemma counted_callFire (h : Counted ev none c fw fr) : Counted ev (some .load) c fw fr :=
  ⟨h.opened, h.reading, by simp, h.count⟩

lemma counted_callConsume (h : Counted ev f none fw fr) : Counted ev f (some .load) fw fr :=
  ⟨h.opened, by simp, h.storing, by simpa [promised] using h.count⟩

lemma counted_fire {pc : FirePc} (h : Counted ev (some pc) c fw fr) (ok : Bool) :
    Counted (ev.fire ok pc).1 (ev.fire ok pc).2 c
      (fw + if pc = .write ∧ ok = false then 1 else 0) fr := by
  obtain ⟨hopened, hreading, hstoring, hcount⟩ := h
  refine ⟨by simpa using hopened, ?_, ?_, ?_⟩
  · intro hc
    have htrue := hreading hc
    cases pc with
    | load => exact htrue
    | store => rfl
    | write => cases ok <;> exact htrue
  · cases pc with
    | load =>
      simp only [PipedEvent.fire]
      split
      · rename_i hload
        exact fun _ => hload.2
      · intro hpc
        cases hpc
    | store => intro hpc; cases hpc
    | write => intro hpc; cases hpc
  · cases pc with
    | load =>
      simp only [PipedEvent.fire]
      split <;> simpa using hcount
    | store =>
      have hfalse := hstoring rfl
      -- the reader is not past its read: it would have found the flag set
      have hc : c ≠ some .store := by
        intro hc
        have htrue := hreading (Or.inr hc)
        rw [hfalse] at htrue
        cases htrue
      simp only [promised, hfalse, Bool.false_eq_true, false_and, if_false,
        aboutToWrite_store] at hcount
      simp only [PipedEvent.fire, promised, true_and, if_pos hc, aboutToWrite_write,
        reduceCtorEq, false_and, if_false]
      omega
    | write =>
      simp only [promised, aboutToWrite_write] at hcount
      cases ok with
      | true =>
        simp only [PipedEvent.fire, promised, aboutToWrite_none, if_true, true_and,
          Bool.true_eq_false, if_false]
        omega
      | false =>
        simp only [PipedEvent.fire, promised, aboutToWrite_none, Bool.false_eq_true, if_true,
          if_false, and_self]
        omega

lemma counted_consume {pc : ConsumePc} {ok : Bool} {pc' : Option ConsumePc}
    (h : Counted ev f (some pc) fw fr) (hs : ev.consume ok pc = some (ev', pc')) :
    Counted ev' f pc' fw (fr + if pc = .read ∧ ok = false then 1 else 0) := by
  obtain ⟨hopened, hreading, hstoring, hcount⟩ := h
  cases pc with
  | load =>
    simp only [PipedEvent.consume, Option.some.injEq, Prod.mk.injEq] at hs
    obtain ⟨rfl, rfl⟩ := hs
    refine ⟨hopened, ?_, hstoring, ?_⟩
    · split
      · rename_i hload
        exact fun _ => hload.2
      · intro hc
        rcases hc with hc | hc <;> cases hc
    · split <;> simpa [promised] using hcount
  | read =>
    have hfired := hreading (Or.inl rfl)
    simp only [promised, hfired, reduceCtorEq, ne_eq, Option.some.injEq, not_false_eq_true,
      and_self, if_true] at hcount
    cases ok with
    | true =>
      simp only [PipedEvent.consume, if_true] at hs
      split at hs
      · cases hs
      · cases hs
        refine ⟨hopened, fun _ => hfired, hstoring, ?_⟩
        simp [promised]
        omega
    | false =>
      cases hs
      refine ⟨hopened, fun _ => hfired, hstoring, ?_⟩
      simp [promised]
      omega
  | store =>
    cases hs
    refine ⟨hopened, by simp, fun _ => rfl, ?_⟩
    simpa [promised] using hcount

/-! ### The steps -/

variable {s t : Failing}

lemma next_cases {a : Action} (h : failing.next s a = some t) :
    (a = .callFire ∧ s.fire = none ∧ t = { s with fire := some .load }) ∨
    (∃ ok pc, a = .fire ok ∧ s.fire = some pc ∧ t = { s with
      ev := (s.ev.fire ok pc).1
      fire := (s.ev.fire ok pc).2
      failedWrites := s.failedWrites + if pc = .write ∧ ok = false then 1 else 0 }) ∨
    (a = .callConsume ∧ s.consume = none ∧ t = { s with consume := some .load }) ∨
    (∃ ok pc ev' pc', a = .consume ok ∧ s.consume = some pc ∧
      s.ev.consume ok pc = some (ev', pc') ∧ t = { s with
        ev := ev'
        consume := pc'
        failedReads := s.failedReads + if pc = .read ∧ ok = false then 1 else 0 }) := by
  cases a with
  | callFire =>
    simp only [failing, next] at h
    split at h
    · exact Or.inl ⟨rfl, ‹_›, (Option.some.inj h).symm⟩
    · cases h
  | fire ok =>
    simp only [failing, next] at h
    split at h
    · cases h
    · exact Or.inr (Or.inl ⟨ok, _, rfl, ‹_›, (Option.some.inj h).symm⟩)
  | callConsume =>
    simp only [failing, next] at h
    split at h
    · exact Or.inr (Or.inr (Or.inl ⟨rfl, ‹_›, (Option.some.inj h).symm⟩))
    · cases h
  | consume ok =>
    simp only [failing, next] at h
    split at h
    · cases h
    · obtain ⟨⟨ev', pc'⟩, hc, ht⟩ := Option.map_eq_some_iff.mp h
      exact Or.inr (Or.inr (Or.inr ⟨ok, _, ev', pc', rfl, ‹_›, hc, ht.symm⟩))

/-- The invariant of the machine. -/
def Inv (s : Failing) : Prop :=
  Counted s.ev s.fire s.consume s.failedWrites s.failedReads

lemma inv_step {a : Action} (h : s.Inv) (ha : failing.next s a = some t) : t.Inv := by
  rw [Inv] at h
  rcases next_cases ha with ⟨-, hf, rfl⟩ | ⟨ok, pc, -, hf, rfl⟩ | ⟨-, hc, rfl⟩ |
    ⟨ok, pc, ev', pc', -, hc, hs, rfl⟩
  · rw [hf] at h
    exact counted_callFire h
  · rw [hf] at h
    exact counted_fire h ok
  · rw [hc] at h
    exact counted_callConsume h
  · rw [hc] at h
    exact counted_consume h hs

lemma inv_of_reachable (h : failing.Reachable s) : s.Inv := by
  refine h.invariant (I := Inv) ?_ fun s a t hI ha => inv_step hI ha
  rintro s ⟨fds, hsource, -, rfl⟩
  exact counted_create hsource

lemma Inv.survives (h : s.Inv) (heq : s.failedWrites = s.failedReads) : s.Survives := by
  have hcount := h.count
  constructor
  · intro hf hc
    simp only [hf, hc, aboutToWrite_none, promised, ne_eq, reduceCtorEq, not_false_eq_true,
      and_true] at hcount
    simp only [Readable]
    split at hcount
    · rename_i hfired
      exact ⟨fun _ => by omega, fun _ => hfired⟩
    · rename_i hfired
      exact ⟨fun htrue => absurd htrue hfired, fun _ => by omega⟩
  · intro hc
    have hfired := h.reading (Or.inl hc)
    simp only [hc, promised, hfired, ne_eq, Option.some.injEq, reduceCtorEq, not_false_eq_true,
      and_self, if_true] at hcount
    by_cases hf : s.fire = some .write
    · exact Or.inr hf
    · simp only [aboutToWrite, if_neg hf] at hcount
      left
      simp only [Readable]
      omega

/-! ### Runs without further failures -/

/-- The state `t` is reached from `s` by steps in which no system call fails. -/
def Later (s t : Failing) : Prop :=
  ∃ tr, failing.Run s tr t ∧ ∀ p ∈ tr, p.2.Succeeds

lemma Later.refl (s : Failing) : Later s s := ⟨[], .nil s, by simp⟩

lemma Later.trans {u : Failing} (h : Later s t) (h' : Later t u) : Later s u := by
  obtain ⟨tr, hr, hok⟩ := h
  obtain ⟨tr', hr', hok'⟩ := h'
  refine ⟨tr ++ tr', hr.append hr', fun p hp => ?_⟩
  exact (List.mem_append.mp hp).elim (hok p) (hok' p)

lemma Later.step {a : Action} (h : failing.next s a = some t) (ha : a.Succeeds) : Later s t :=
  ⟨[(s, a)], .single h, by simpa using ha⟩

lemma Later.exists {P : Failing → Prop} (h : Later s t) (h' : ∃ u, Later t u ∧ P u) :
    ∃ u, Later s u ∧ P u := by
  obtain ⟨u, hu, hP⟩ := h'
  exact ⟨u, h.trans hu, hP⟩

lemma counters_step {a : Action} (h : failing.next s a = some t) (ha : a.Succeeds) :
    t.failedWrites = s.failedWrites ∧ t.failedReads = s.failedReads := by
  rcases next_cases h with ⟨-, -, rfl⟩ | ⟨ok, pc, rfl, -, rfl⟩ | ⟨-, -, rfl⟩ |
    ⟨ok, pc, ev', pc', rfl, -, -, rfl⟩
  · exact ⟨rfl, rfl⟩
  · obtain rfl : ok = true := ha
    exact ⟨by simp, rfl⟩
  · exact ⟨rfl, rfl⟩
  · obtain rfl : ok = true := ha
    exact ⟨rfl, by simp⟩

lemma Later.kept (h : Later s t) (hI : s.Inv) :
    t.Inv ∧ t.failedWrites = s.failedWrites ∧ t.failedReads = s.failedReads := by
  obtain ⟨tr, hr, hok⟩ := h
  refine hr.invariant (I := fun u => u.Inv ∧ u.failedWrites = s.failedWrites ∧
    u.failedReads = s.failedReads) (C := fun _ a => a.Succeeds) ?_ hok ⟨hI, rfl, rfl⟩
  rintro u a v ⟨hu, hw, hr⟩ ha hnext
  obtain ⟨hw', hr'⟩ := counters_step hnext ha
  exact ⟨inv_step hu hnext, hw'.trans hw, hr'.trans hr⟩

lemma later_fire {pc : FirePc} (hf : s.fire = some pc) :
    Later s { s with ev := (s.ev.fire true pc).1, fire := (s.ev.fire true pc).2 } := by
  refine .step (a := .fire true) ?_ rfl
  simp [failing, next, hf]

lemma later_consume {pc : ConsumePc} {ev' : PipedEvent} {pc' : Option ConsumePc}
    (hc : s.consume = some pc) (hs : s.ev.consume true pc = some (ev', pc')) :
    Later s { s with ev := ev', consume := pc' } := by
  refine .step (a := .consume true) ?_ rfl
  simp [failing, next, hc, hs]

lemma later_fire_returns (s : Failing) : ∃ t, Later s t ∧ t.fire = none := by
  have hwrite : ∀ u : Failing, u.fire = some .write → ∃ t, Later u t ∧ t.fire = none :=
    fun u hu => ⟨_, later_fire hu, rfl⟩
  have hstore : ∀ u : Failing, u.fire = some .store → ∃ t, Later u t ∧ t.fire = none :=
    fun u hu => (later_fire hu).exists (hwrite _ rfl)
  cases hf : s.fire with
  | none => exact ⟨s, .refl s, hf⟩
  | some pc =>
    cases pc with
    | load =>
      have hload := later_fire hf
      by_cases hfire : s.ev.fds.1 ≠ 0 ∧ s.ev.fired = false
      · simp only [PipedEvent.fire, if_pos hfire] at hload
        exact hload.exists (hstore _ rfl)
      · simp only [PipedEvent.fire, if_neg hfire] at hload
        exact ⟨_, hload, rfl⟩
    | store => exact hstore s hf
    | write => exact hwrite s hf

lemma later_read (hopened : s.ev.fds.1 ≠ 0) (hfired : s.ev.fired = true)
    (hc : s.consume = none ∨ s.consume = some .load) :
    Later s { s with consume := some .read } := by
  have hload : ∀ u : Failing, u.ev = s.ev → u.consume = some .load →
      Later u { u with consume := some .read } := by
    intro u hu huc
    have hs : u.ev.consume true .load = some (u.ev, some .read) := by
      simp [PipedEvent.consume, hu, hopened, hfired]
    exact later_consume huc hs
  rcases hc with hc | hc
  · refine Later.trans (.step (a := .callConsume) ?_ trivial) (hload { s with
      consume := some .load } rfl rfl)
    simp [failing, next, hc]
  · exact hload s rfl hc

lemma later_reset (hf : s.fire = none)
    (hc : s.consume = some .store ∨ s.consume = some .read ∧ 0 < s.ev.bytes) :
    ∃ t, Later s t ∧ t.fire = none ∧ t.consume = none ∧ t.ev.fired = false := by
  have hstore : ∀ u : Failing, u.fire = none → u.consume = some .store →
      ∃ t, Later u t ∧ t.fire = none ∧ t.consume = none ∧ t.ev.fired = false :=
    fun u hu huc => ⟨_, later_consume huc rfl, hu, rfl, rfl⟩
  rcases hc with hc | ⟨hc, hbytes⟩
  · exact hstore s hf hc
  · have hs : s.ev.consume true .read =
        some ({ s.ev with bytes := s.ev.bytes - 1 }, some .store) := by
      have hne : s.ev.bytes ≠ 0 := by omega
      simp [PipedEvent.consume, hne]
    exact (later_consume hc hs).exists (hstore _ hf rfl)

/-! ### What survival is good for -/

/-- A `Fire` whose write has failed can be repeated. -/
theorem Survives.fire_again (h : s.Survives) (hI : s.Inv) (hf : s.fire = none)
    (hc : s.consume = none) (hempty : ¬ s.ev.Readable) :
    ∃ t, Later s t ∧ t.fire = none ∧ t.ev.Readable := by
  have hunset : s.ev.fired = false := by
    by_contra hfired
    exact hempty ((h.agree hf hc).mp (by simpa using hfired))
  have hcall : failing.next s .callFire = some { s with fire := some .load } := by
    simp [failing, next, hf]
  have hload : s.ev.fire true .load = (s.ev, some .store) := by
    simp [PipedEvent.fire, hI.opened, hunset]
  have hstore := later_fire (s := { s with fire := some .load }) rfl
  simp only [hload] at hstore
  refine ((Later.step hcall trivial).trans hstore).exists ?_
  exact (later_fire rfl).exists ⟨_, later_fire rfl, rfl, by simp [PipedEvent.fire, Readable]⟩

/-- A `Consume` whose read has failed can be repeated: it comes to its read with a byte in the
pipe. -/
theorem Survives.consume_again (h : s.Survives) (hI : s.Inv) (hf : s.fire = none)
    (hc : s.consume = none) (hread : s.ev.Readable) :
    ∃ t, Later s t ∧ t.consume = some .read ∧ t.ev.Readable :=
  ⟨_, later_read hI.opened ((h.agree hf hc).mpr hread) (Or.inl hc), rfl, hread⟩

/-! ### What failures lead to -/

/-- More writes than reads have failed: the flag is set over an empty pipe, and the next
`Consume` waits for a byte that nobody writes. -/
lemma waits_of_lt (hI : s.Inv) (hlt : s.failedReads < s.failedWrites) :
    ∃ t, Later s t ∧ ¬ t.Survives := by
  have hcount := hI.count
  have hfired : s.ev.fired = true := by
    by_contra hunset
    simp only [promised, hunset, false_and, if_false] at hcount
    omega
  have hc : s.consume ≠ some .store := by
    intro hc
    simp only [promised, hc, ne_eq, not_true_eq_false, and_false, if_false] at hcount
    omega
  simp only [promised, hfired, ne_eq, hc, not_false_eq_true, and_self, if_true] at hcount
  have hbytes : ¬ s.ev.Readable := by
    simp only [Readable]
    omega
  have hwrite : s.fire ≠ some .write := by
    intro hf
    simp only [hf, aboutToWrite_write] at hcount
    omega
  -- whoever reads now waits for ever
  have hwaits : ∀ t : Failing, t.ev = s.ev → t.fire = s.fire → t.consume = some .read →
      ¬ t.Survives := by
    intro t hev hfire hread hsurvives
    rcases hsurvives.wakes hread with hreadable | hf
    · exact hbytes (hev ▸ hreadable)
    · exact hwrite (hfire ▸ hf)
  by_cases hread : s.consume = some .read
  · exact ⟨s, .refl s, hwaits s rfl rfl hread⟩
  · refine ⟨_, later_read hI.opened hfired ?_, hwaits _ rfl rfl rfl⟩
    cases hpc : s.consume with
    | none => exact Or.inl rfl
    | some pc =>
      cases pc with
      | load => exact Or.inr rfl
      | read => exact absurd hpc hread
      | store => exact absurd hpc hc

/-- Where no more writes than reads have failed, a `Consume` that finds the flag set finds a
byte, too, and resets the flag. -/
lemma Inv.later_unset (hI : s.Inv) (hf : s.fire = none)
    (hle : s.failedWrites ≤ s.failedReads) :
    ∃ t, Later s t ∧ t.fire = none ∧ t.consume = none ∧ t.ev.fired = false := by
  have hcount := hI.count
  rw [hf, aboutToWrite_none] at hcount
  by_cases hfired : s.ev.fired = true
  · have hbytes : s.consume ≠ some .store → 0 < s.ev.bytes := by
      intro hc
      simp only [promised, hfired, hc, ne_eq, not_false_eq_true, and_self, if_true] at hcount
      omega
    have hreset : s.consume = none ∨ s.consume = some .load →
        ∃ t, Later s t ∧ t.fire = none ∧ t.consume = none ∧ t.ev.fired = false := by
      intro hc
      have hread := later_read hI.opened hfired hc
      refine hread.exists (later_reset hf (Or.inr ⟨rfl, hbytes ?_⟩))
      rcases hc with hc | hc <;> simp [hc]
    cases hc : s.consume with
    | none => exact hreset (Or.inl hc)
    | some pc =>
      cases pc with
      | load => exact hreset (Or.inr hc)
      | read => exact later_reset hf (Or.inr ⟨hc, hbytes (by simp [hc])⟩)
      | store => exact later_reset hf (Or.inl hc)
  · have hunset : s.ev.fired = false := by simpa using hfired
    cases hc : s.consume with
    | none => exact ⟨s, .refl s, hf, hc, hunset⟩
    | some pc =>
      cases pc with
      | load =>
        have hs : s.ev.consume true .load = some (s.ev, none) := by
          simp [PipedEvent.consume, hunset]
        exact ⟨_, later_consume hc hs, hf, rfl, hunset⟩
      | read => exact absurd (hI.reading (Or.inl hc)) hfired
      | store => exact absurd (hI.reading (Or.inr hc)) hfired

/-- More reads than writes have failed: when the flag is reset a byte is left in the pipe. -/
lemma stale_of_lt (hI : s.Inv) (hlt : s.failedWrites < s.failedReads) :
    ∃ t, Later s t ∧ ¬ t.Survives := by
  obtain ⟨u, hu, hf⟩ := later_fire_returns s
  obtain ⟨huI, hw, hr⟩ := hu.kept hI
  obtain ⟨t, ht, htf, htc, hunset⟩ := huI.later_unset hf (by omega)
  obtain ⟨htI, htw, htr⟩ := ht.kept huI
  -- the bytes are those that no read has taken
  have hcount := htI.count
  simp only [htf, aboutToWrite_none, promised, hunset, Bool.false_eq_true, false_and,
    if_false] at hcount
  refine ⟨t, hu.trans ht, fun hsurvives => ?_⟩
  have hreadable : t.ev.Readable := by
    simp only [Readable]
    omega
  have hfired := (hsurvives.agree htf htc).mpr hreadable
  rw [hunset] at hfired
  cases hfired

end Failing

/-- **Failing system calls.**  An event survives, now and in whatever follows without a
further failure, exactly when as many reads as writes have failed so far. -/
theorem survives_iff {s : Failing} (h : failing.Reachable s) :
    (∀ tr t, failing.Run s tr t → (∀ p ∈ tr, p.2.Succeeds) → t.Survives) ↔
      s.failedWrites = s.failedReads := by
  have hI := Failing.inv_of_reachable h
  constructor
  · intro hsurvives
    by_contra hne
    obtain ⟨t, ⟨tr, hr, hok⟩, hlost⟩ : ∃ t, Failing.Later s t ∧ ¬ t.Survives := by
      rcases Nat.lt_or_gt_of_ne hne with hlt | hlt
      · exact Failing.stale_of_lt hI hlt
      · exact Failing.waits_of_lt hI hlt
    exact hlost (hsurvives tr t hr hok)
  · intro heq tr t hr hok
    have hlater : Failing.Later s t := ⟨tr, hr, hok⟩
    obtain ⟨htI, hw, hr⟩ := hlater.kept hI
    exact htI.survives (by rw [hw, hr, heq])

/-- A read and then a write have failed: the byte of the first `Fire` stands in for that of the
second one. -/
theorem survives_two : ∃ s, failing.Reachable s ∧ s.failedWrites = 1 ∧ s.failedReads = 1 ∧
    s.ev.fired = true ∧ ∀ tr t, failing.Run s tr t → (∀ p ∈ tr, p.2.Succeeds) → t.Survives := by
  have h₀ : failing.Reachable (.start (3, 4)) := .of_init ⟨(3, 4), by decide, by decide, rfl⟩
  obtain ⟨s, hs, hw, hr, hfired⟩ : ∃ s, failing.exec (.start (3, 4))
      [.callFire, .fire true, .fire true, .fire true, .callConsume, .consume true,
        .consume false, .consume true, .callFire, .fire true, .fire true, .fire false] = some s ∧
      s.failedWrites = 1 ∧ s.failedReads = 1 ∧ s.ev.fired = true := ⟨_, rfl, rfl, rfl, rfl⟩
  exact ⟨s, h₀.exec hs, hw, hr, hfired, (survives_iff (h₀.exec hs)).mpr (hw.trans hr.symm)⟩

/-- The write of a `Fire` fails: the flag is set, the pipe is empty, and no call is in
progress. -/
theorem not_survives : ∃ s, failing.Reachable s ∧ s.fire = none ∧ s.consume = none ∧
    s.ev.fired = true ∧ ¬ s.ev.Readable ∧ ¬ s.Survives := by
  have h₀ : failing.Reachable (.start (3, 4)) := .of_init ⟨(3, 4), by decide, by decide, rfl⟩
  obtain ⟨s, hs, hf, hc, hfired, hread⟩ : ∃ s, failing.exec (.start (3, 4))
      [.callFire, .fire true, .fire true, .fire false] = some s ∧ s.fire = none ∧
      s.consume = none ∧ s.ev.fired = true ∧ ¬ s.ev.Readable :=
    ⟨_, rfl, rfl, rfl, rfl, by decide⟩
  exact ⟨s, h₀.exec hs, hf, hc, hfired, hread, fun hsurvives =>
    hread ((hsurvives.agree hf hc).mp hfired)⟩

end EventManager
