import EventManager.Lib.Machine

/-!
# PipedEvent

The event of `inc/PipedEvent.h`: an atomic flag `_fired` and a pipe.  `Fire` writes a byte
when the flag is not set, `Consume` reads a byte when it is.  Both touch the flag and the
pipe in separate steps, and in opposite order, so a call in progress is described by the
step that it takes next.

The invariant that everything else rests on is `Balanced`: the bytes in the pipe and the
bytes that are about to be written are together one byte while the flag is set and the
reader has not read, and none otherwise.  A `Fire` that stores while the flag is set is
the only step that breaks it.
-/

namespace EventManager

/-- The state of a `PipedEvent`: its members, and the pipe behind its descriptors. -/
structure PipedEvent where
  /-- `_fds`: the source (read end) and the sink (write end) of the pipe. -/
  fds : ℤ × ℤ
  /-- `_fired`. -/
  fired : Bool
  /-- The number of bytes in the pipe. -/
  bytes : ℕ
deriving DecidableEq, Repr

/-- The step that a call of `Fire` takes next. -/
inductive FirePc
  | load
  | store
  | write
deriving DecidableEq, Repr

/-- The step that a call of `Consume` takes next. -/
inductive ConsumePc
  | load
  | read
  | store
deriving DecidableEq, Repr

namespace PipedEvent

/-- The constructor, when `pipe` returns `fds`. -/
def create (fds : ℤ × ℤ) : PipedEvent := ⟨fds, false, 0⟩

/-- `GetSource`. -/
def getSource (ev : PipedEvent) : ℤ := ev.fds.1

/-- One step of `Fire`, and the step after it, `none` when the call has returned.  `ok`
says whether the system call of the step succeeds; its result is ignored. -/
def fire (ok : Bool) (ev : PipedEvent) : FirePc → PipedEvent × Option FirePc
  | .load => (ev, if ev.fds.1 ≠ 0 ∧ ev.fired = false then some .store else none)
  | .store => ({ ev with fired := true }, some .write)
  | .write => (if ok then { ev with bytes := ev.bytes + 1 } else ev, none)

/-- One step of `Consume`.  A successful read of an empty pipe waits: there is no step. -/
def consume (ok : Bool) (ev : PipedEvent) : ConsumePc → Option (PipedEvent × Option ConsumePc)
  | .load => some (ev, if ev.fds.1 ≠ 0 ∧ ev.fired = true then some .read else none)
  | .read =>
    if ok then
      if ev.bytes = 0 then none else some ({ ev with bytes := ev.bytes - 1 }, some .store)
    else some (ev, some .store)
  | .store => some ({ ev with fired := false }, none)

/-- The pipe is readable: `epoll_wait` reports its source, level-triggered. -/
def Readable (ev : PipedEvent) : Prop := 0 < ev.bytes

instance (ev : PipedEvent) : Decidable ev.Readable := inferInstanceAs (Decidable (0 < _))

/-! ### What the steps do -/

@[simp] lemma fire_fds (ok : Bool) (ev : PipedEvent) (pc : FirePc) :
    (ev.fire ok pc).1.fds = ev.fds := by
  cases pc <;> simp only [fire]
  split <;> rfl

lemma consume_fds {ok : Bool} {ev ev' : PipedEvent} {pc : ConsumePc} {pc' : Option ConsumePc}
    (h : ev.consume ok pc = some (ev', pc')) : ev'.fds = ev.fds := by
  cases pc <;> simp only [consume] at h
  case load => cases h; rfl
  case read => split at h <;> [split at h; skip] <;> cases h <;> rfl
  case store => cases h; rfl

lemma consume_cases {ev ev' : PipedEvent} {pc : ConsumePc} {pc' : Option ConsumePc}
    (h : ev.consume true pc = some (ev', pc')) :
    (pc = .load ∧ ev' = ev ∧ pc' = none ∧ ¬ (ev.fds.1 ≠ 0 ∧ ev.fired = true)) ∨
    (pc = .load ∧ ev' = ev ∧ pc' = some .read ∧ ev.fds.1 ≠ 0 ∧ ev.fired = true) ∨
    (pc = .read ∧ ev' = { ev with bytes := ev.bytes - 1 } ∧ pc' = some .store ∧
      0 < ev.bytes) ∨
    (pc = .store ∧ ev' = { ev with fired := false } ∧ pc' = none) := by
  cases pc with
  | load =>
    simp only [consume, Option.some.injEq, Prod.mk.injEq] at h
    obtain ⟨rfl, rfl⟩ := h
    by_cases hf : ev.fds.1 ≠ 0 ∧ ev.fired = true
    · exact Or.inr (Or.inl ⟨rfl, rfl, if_pos hf, hf⟩)
    · exact Or.inl ⟨rfl, rfl, if_neg hf, hf⟩
  | read =>
    simp only [consume, if_true] at h
    split at h
    · cases h
    · simp only [Option.some.injEq, Prod.mk.injEq] at h
      exact Or.inr (Or.inr (Or.inl ⟨rfl, h.1.symm, h.2.symm, by omega⟩))
  | store =>
    simp only [consume, Option.some.injEq, Prod.mk.injEq] at h
    exact Or.inr (Or.inr (Or.inr ⟨rfl, h.1.symm, h.2.symm⟩))

/-! ### The balance of flag and pipe -/

/-- The bytes that the flag promises: one from the store of a `Fire` to the read of a
`Consume`. -/
def promised (ev : PipedEvent) (c : Option ConsumePc) : ℕ :=
  if ev.fired = true ∧ c ≠ some .store then 1 else 0

/-- When `w` calls of `Fire` are about to write and the reader is at `c`: past its load the
reader finds the flag set, and the bytes written or about to be written are those that the flag
promises and `k` more. -/
structure Surplus (k : ℕ) (ev : PipedEvent) (w : ℕ) (c : Option ConsumePc) : Prop where
  reading : c = some .read ∨ c = some .store → ev.fired = true
  count : ev.bytes + w = ev.promised c + k

namespace Surplus

variable {ev ev' : PipedEvent} {k w : ℕ} {c : Option ConsumePc}

lemma create (fds : ℤ × ℤ) : Surplus 0 (create fds) 0 none := by
  exact ⟨by simp, rfl⟩

lemma call (h : Surplus k ev w none) : Surplus k ev w (some .load) :=
  ⟨by simp, by simpa [promised] using h.count⟩

/-- A `Fire` that finds the flag still unset when it stores. -/
lemma store (h : Surplus k ev w c) (hf : ev.fired = false) :
    Surplus k { ev with fired := true } (w + 1) c := by
  have hc : c ≠ some .store := fun hc => by
    have := h.reading (Or.inr hc)
    rw [hf] at this
    cases this
  have hcount := h.count
  simp only [promised, hf, Bool.false_eq_true, false_and, if_false] at hcount
  refine ⟨fun _ => rfl, ?_⟩
  simp only [promised, true_and, if_pos hc]
  omega

/-- A `Fire` that stores into a set flag. -/
lemma store_set (h : Surplus k ev w c) (hf : ev.fired = true) :
    Surplus (k + 1) { ev with fired := true } (w + 1) c := by
  have hcount := h.count
  refine ⟨fun _ => rfl, ?_⟩
  simp only [promised, hf] at hcount ⊢
  omega

lemma write (h : Surplus k ev (w + 1) c) :
    Surplus k { ev with bytes := ev.bytes + 1 } w c := by
  refine ⟨h.reading, ?_⟩
  have hcount := h.count
  simp only [promised] at hcount ⊢
  omega

lemma consume (h : Surplus k ev w (some pc)) {pc' : Option ConsumePc}
    (hs : ev.consume true pc = some (ev', pc')) : Surplus k ev' w pc' := by
  have hcount := h.count
  rcases consume_cases hs with ⟨rfl, rfl, rfl, -⟩ | ⟨rfl, rfl, rfl, -, hf⟩ |
    ⟨rfl, rfl, rfl, hb⟩ | ⟨rfl, rfl, rfl⟩
  · -- the flag is not set: the call returns
    exact ⟨by simp, by simpa [promised] using hcount⟩
  · exact ⟨fun _ => hf, by simpa [promised] using hcount⟩
  · have hf : ev.fired = true := h.reading (Or.inl rfl)
    refine ⟨fun _ => hf, ?_⟩
    simp [promised, hf] at hcount ⊢
    omega
  · exact ⟨by simp, by simpa [promised] using hcount⟩

lemma bytes_le_one (h : Surplus 0 ev w c) : ev.bytes ≤ 1 := by
  have hcount := h.count
  simp only [promised] at hcount
  split at hcount <;> omega

/-- With no reader at work and no write outstanding, the pipe holds a byte for a set flag, and
the surplus. -/
lemma bytes_eq (h : Surplus k ev 0 c) (hc : c ≠ some .store) :
    ev.bytes = (if ev.fired = true then 1 else 0) + k := by
  have hcount := h.count
  simpa [promised, hc] using hcount

lemma fired_iff (h : Surplus 0 ev 0 c) (hc : c ≠ some .store) :
    ev.fired = true ↔ ev.bytes = 1 := by
  rw [h.bytes_eq hc]
  split <;> simp_all

end Surplus

/-! ### One firing thread -/

/-- The number of bytes that a call of `Fire` is about to write. -/
def aboutToWrite (f : Option FirePc) : ℕ := if f = some .write then 1 else 0

@[simp] lemma aboutToWrite_none : aboutToWrite none = 0 := rfl
@[simp] lemma aboutToWrite_load : aboutToWrite (some .load) = 0 := rfl
@[simp] lemma aboutToWrite_store : aboutToWrite (some .store) = 0 := rfl
@[simp] lemma aboutToWrite_write : aboutToWrite (some .write) = 1 := rfl

/-- The invariant of an event with one firing thread at `f` and one consuming thread at
`c`: flag and pipe agree, and a `Fire` that is about to store still finds the flag unset,
because nobody else sets it. -/
structure SignalInv (ev : PipedEvent) (f : Option FirePc) (c : Option ConsumePc) : Prop where
  opened : ev.fds.1 ≠ 0
  balanced : Surplus 0 ev (aboutToWrite f) c
  storing : f = some .store → ev.fired = false

namespace SignalInv

variable {ev ev' : PipedEvent} {f : Option FirePc} {c : Option ConsumePc}

lemma create {fds : ℤ × ℤ} (h : fds.1 ≠ 0) : SignalInv (create fds) none none :=
  ⟨h, .create fds, fun hf => by cases hf⟩

lemma callFire (h : SignalInv ev none c) : SignalInv ev (some .load) c :=
  ⟨h.opened, h.balanced, fun hf => by cases hf⟩

lemma callConsume (h : SignalInv ev f none) : SignalInv ev f (some .load) :=
  ⟨h.opened, h.balanced.call, h.storing⟩

lemma fire {pc : FirePc} (h : SignalInv ev (some pc) c) :
    SignalInv (ev.fire true pc).1 (ev.fire true pc).2 c := by
  refine ⟨by simpa using h.opened, ?_, ?_⟩
  · cases pc with
    | load =>
      simp only [PipedEvent.fire]
      split <;> exact h.balanced
    | store => exact h.balanced.store (h.storing rfl)
    | write => exact h.balanced.write
  · cases pc with
    | load =>
      simp only [PipedEvent.fire]
      split
      · rename_i hf; exact fun _ => hf.2
      · intro hf; cases hf
    | store => intro hf; cases hf
    | write => intro hf; cases hf

lemma consume {pc : ConsumePc} {pc' : Option ConsumePc} (h : SignalInv ev f (some pc))
    (hs : ev.consume true pc = some (ev', pc')) : SignalInv ev' f pc' := by
  refine ⟨by rw [consume_fds hs]; exact h.opened, h.balanced.consume hs, fun hf => ?_⟩
  have hfalse := h.storing hf
  rcases consume_cases hs with ⟨-, rfl, -⟩ | ⟨-, rfl, -⟩ | ⟨-, rfl, -⟩ | ⟨-, rfl, -⟩
  · exact hfalse
  · exact hfalse
  · exact hfalse
  · rfl

/-- A set flag, no `Fire` about to write and no `Consume` past its read: there is a byte
to wake the reader. -/
lemma readable (h : SignalInv ev f c) (hf : f ≠ some .write) (hc : c ≠ some .store)
    (hfired : ev.fired = true) : ev.Readable := by
  have hcount := h.balanced.count
  simp only [aboutToWrite, if_neg hf, promised, hfired, true_and, if_pos hc] at hcount
  simp only [Readable]
  omega

/-- A `Fire` that returns leaves the flag set: it has found it set, or it has written the
byte that the flag promises. -/
lemma fired_of_fire {pc : FirePc} (h : SignalInv ev (some pc) c)
    (hf : (ev.fire true pc).2 = none) : (ev.fire true pc).1.fired = true := by
  cases pc with
  | load =>
    by_contra hunset
    have hfalse : ev.fired = false := by simpa [PipedEvent.fire] using hunset
    simp [PipedEvent.fire, h.opened, hfalse] at hf
  | store => rfl
  | write =>
    have hcount := h.balanced.count
    by_contra hunset
    have hfalse : ev.fired = false := by simpa [PipedEvent.fire] using hunset
    simp [promised, hfalse] at hcount

end SignalInv

end PipedEvent

end EventManager
