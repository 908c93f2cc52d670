import EventManager.PipedEvent.Basic

/-!
# The descriptors of a PipedEvent

`CloseSource` and `CloseSink` mark an end as closed by setting its descriptor to 0, and the
destructor calls both.  A `Process` is an event together with the descriptors that are open
and the system calls that the event has made, so that one can say which descriptors it
touches (`Owned`).

The marker goes wrong in two ways.  A pipe may get the descriptor 0, which is then never
closed; and `Fire` looks at the marker of the source but writes to the sink, so that after
`CloseSink` it writes to the descriptor 0.  Nothing else does (`owned_iff`).
-/

namespace EventManager

/-- A system call, with the descriptor that it is made on. -/
inductive Syscall
  | write (fd : ℤ)
  | read (fd : ℤ)
  | close (fd : ℤ)
deriving DecidableEq, Repr

/-- An event and what it sees of its process. -/
structure Process where
  event : PipedEvent
  /-- The descriptors that are open. -/
  opened : Finset ℤ
  /-- The system calls that the event has made. -/
  calls : List Syscall

namespace Process

/-- The process after the constructor, when `pipe` returns `fds` and the descriptors `opened`
were open before. -/
def start (opened : Finset ℤ) (fds : ℤ × ℤ) : Process :=
  ⟨.create fds, insert fds.1 (insert fds.2 opened), []⟩

/-- The system call `close`, and what it returns. -/
def close (s : Process) (fd : ℤ) : Process × ℤ :=
  ({ s with opened := s.opened.erase fd, calls := s.calls ++ [.close fd] },
    if fd ∈ s.opened then 0 else -1)

/-- `Fire`, from its call to its return; `ok` says whether the write puts a byte into the
pipe. -/
def fire (ok : Bool) (s : Process) : Process :=
  if s.event.fds.1 ≠ 0 ∧ s.event.fired = false then
    { s with
      event := { s.event with
        fired := true
        bytes := if ok then s.event.bytes + 1 else s.event.bytes }
      calls := s.calls ++ [.write s.event.fds.2] }
  else s

/-- `Consume`, from its call to its return; `ok` says whether the read gets a byte. -/
def consume (ok : Bool) (s : Process) : Process :=
  if s.event.fds.1 ≠ 0 ∧ s.event.fired = true then
    { s with
      event := { s.event with
        fired := false
        bytes := if ok then s.event.bytes - 1 else s.event.bytes }
      calls := s.calls ++ [.read s.event.fds.1] }
  else s

/-- `CloseSource`. -/
def closeSource (s : Process) : Process × ℤ :=
  if s.event.fds.1 = 0 then (s, 0)
  else
    let (s', ret) := s.close s.event.fds.1
    (if ret = 0 then { s' with event := { s.event with fds := (0, s.event.fds.2) } } else s', ret)

/-- `CloseSink`. -/
def closeSink (s : Process) : Process × ℤ :=
  if s.event.fds.2 = 0 then (s, 0)
  else
    let (s', ret) := s.close s.event.fds.2
    (if ret = 0 then { s' with event := { s.event with fds := (s.event.fds.1, 0) } } else s', ret)

/-- The destructor. -/
def destroy (s : Process) : Process := s.closeSource.1.closeSink.1

/-- A call that the owner of an event makes. -/
inductive Op
  | fire (ok : Bool)
  | consume (ok : Bool)
  | closeSource
  | closeSink
deriving DecidableEq, Repr

/-- The process after a call. -/
def call (s : Process) : Op → Process
  | .fire ok => s.fire ok
  | .consume ok => s.consume ok
  | .closeSource => s.closeSource.1
  | .closeSink => s.closeSink.1

/-- The life of an event in a process: the constructor, the calls `ops`, the destructor. -/
def life (opened : Finset ℤ) (fds : ℤ × ℤ) (ops : List Op) : Process :=
  (ops.foldl call (start opened fds)).destroy

/-- The state in which `Fire` would write although the sink is closed: only the source is
open, and the flag is not set. -/
def Unguarded (s : Process) : Prop :=
  s.event.fds.1 ≠ 0 ∧ s.event.fds.2 = 0 ∧ s.event.fired = false

/-! ### The calls and the steps of the two threads -/

/-- A call of `Fire` that passes its check takes the three steps of `PipedEvent.fire`, and
another one takes only the first. -/
lemma fire_event (ok : Bool) (s : Process) :
    (s.fire ok).event = match s.event.fire ok .load with
      | (ev, some pc) => ((ev.fire ok pc).1.fire ok .write).1
      | (ev, none) => ev := by
  by_cases h : s.event.fds.1 ≠ 0 ∧ s.event.fired = false
  · simp only [fire, PipedEvent.fire, if_pos h]
    cases ok <;> rfl
  · simp only [fire, PipedEvent.fire, if_neg h]

lemma consume_event {ok : Bool} {s : Process} {ev : PipedEvent}
    (hload : s.event.consume ok .load = some (s.event, some .read))
    (hread : s.event.consume ok .read = some (ev, some .store)) :
    ev.consume ok .store = some ((s.consume ok).event, none) := by
  have h : s.event.fds.1 ≠ 0 ∧ s.event.fired = true := by
    by_contra hn
    simp [PipedEvent.consume, hn] at hload
  cases ok with
  | true =>
    simp only [PipedEvent.consume, if_true] at hread
    split at hread
    · cases hread
    · cases hread
      simp [PipedEvent.consume, consume, h]
  | false =>
    simp only [PipedEvent.consume, Bool.false_eq_true, if_false] at hread
    cases hread
    simp [PipedEvent.consume, consume, h]

/-! ### The closing of an end -/

lemma closeSource_of_open {s : Process} (h : s.event.fds.1 ≠ 0)
    (hopen : s.event.fds.1 ∈ s.opened) :
    s.closeSource.1 = { (s.close s.event.fds.1).1 with
      event := { s.event with fds := (0, s.event.fds.2) } } := by
  simp only [closeSource, if_neg h, close, if_pos hopen, if_true]

lemma closeSink_of_open {s : Process} (h : s.event.fds.2 ≠ 0)
    (hopen : s.event.fds.2 ∈ s.opened) :
    s.closeSink.1 = { (s.close s.event.fds.2).1 with
      event := { s.event with fds := (s.event.fds.1, 0) } } := by
  simp only [closeSink, if_neg h, close, if_pos hopen, if_true]

/-! ### What an event may touch -/

/-- The event that owns the pipe `(r, w)` may make the call `c` after the calls `before`. -/
def Allowed (r w : ℤ) (before : List Syscall) : Syscall → Prop
  | .write fd => fd = w ∧ .close w ∉ before
  | .read fd => fd = r ∧ .close r ∉ before
  | .close fd => fd = r ∨ fd = w

/-- Each of the calls may be made after those before it. -/
def Respects (r w : ℤ) (calls : List Syscall) : Prop :=
  ∀ before c, before ++ [c] <+: calls → Allowed r w before c

/-- An event touches only what it owns: it writes to `w` and reads from `r` while they are
open, touches nothing else, and has closed each of them exactly once in the end. -/
structure Owned (r w : ℤ) (calls : List Syscall) : Prop where
  respects : Respects r w calls
  source_once : calls.count (.close r) = 1
  sink_once : calls.count (.close w) = 1

lemma Respects.snoc {r w : ℤ} {calls : List Syscall} {c : Syscall} (h : Respects r w calls)
    (hc : Allowed r w calls c) : Respects r w (calls ++ [c]) := by
  intro before d hd
  rcases List.prefix_concat_iff.mp hd with heq | hpre
  · obtain ⟨rfl, rfl⟩ := List.append_singleton_inj.mp heq
    exact hc
  · exact h before d hpre

/-- The end that got the descriptor `fd` and whose member is `cur` now: it is open, or it has
been closed once. -/
def Keeps (fd cur : ℤ) (s : Process) : Prop :=
  (cur = fd ∧ fd ∈ s.opened ∧ s.calls.count (.close fd) = 0) ∨
    (cur = 0 ∧ s.calls.count (.close fd) = 1)

/-- The invariant of an event with the pipe `(r, w)`. -/
structure Inv (r w : ℤ) (s : Process) : Prop where
  source : Keeps r s.event.fds.1 s
  sink : Keeps w s.event.fds.2 s
  respects : Respects r w s.calls

lemma Keeps.eq_of_ne_zero {fd cur : ℤ} {s : Process} (h : Keeps fd cur s) (hcur : cur ≠ 0) :
    cur = fd ∧ fd ∈ s.opened ∧ s.calls.count (.close fd) = 0 := by
  rcases h with hopen | ⟨hzero, -⟩
  · exact hopen
  · exact absurd hzero hcur

lemma Keeps.of_count {fd cur : ℤ} {s t : Process} (h : Keeps fd cur s)
    (hopened : t.opened = s.opened)
    (hcount : t.calls.count (.close fd) = s.calls.count (.close fd)) : Keeps fd cur t := by
  simpa only [Keeps, hopened, hcount] using h

lemma Keeps.close_of_ne {fd fd' cur : ℤ} {s : Process} (h : Keeps fd cur s) (hne : fd' ≠ fd) :
    Keeps fd cur (s.close fd').1 := by
  have hcount : (s.calls ++ [Syscall.close fd']).count (.close fd) =
      s.calls.count (.close fd) := by
    simp [hne]
  simpa only [Keeps, close, hcount, Finset.mem_erase, ne_eq, Ne.symm hne, not_false_eq_true,
    true_and] using h

variable {r w : ℤ} {s : Process}

lemma inv_start (opened : Finset ℤ) (fds : ℤ × ℤ) : Inv fds.1 fds.2 (start opened fds) where
  source := Or.inl ⟨rfl, by simp [start], rfl⟩
  sink := Or.inl ⟨rfl, by simp [start], rfl⟩
  respects before c hc := by simp [start] at hc

lemma inv_fire (h : Inv r w s) (ok : Bool) (hguard : ¬ s.Unguarded) : Inv r w (s.fire ok) := by
  by_cases hload : s.event.fds.1 ≠ 0 ∧ s.event.fired = false
  · have hsink : s.event.fds.2 ≠ 0 := fun h0 => hguard ⟨hload.1, h0, hload.2⟩
    obtain ⟨hw, -, hcount⟩ := h.sink.eq_of_ne_zero hsink
    rw [fire, if_pos hload]
    refine ⟨h.source.of_count rfl (by simp), h.sink.of_count rfl (by simp), ?_⟩
    exact h.respects.snoc ⟨hw, List.count_eq_zero.mp hcount⟩
  · rw [fire, if_neg hload]
    exact h

lemma inv_consume (h : Inv r w s) (ok : Bool) : Inv r w (s.consume ok) := by
  by_cases hload : s.event.fds.1 ≠ 0 ∧ s.event.fired = true
  · obtain ⟨hr, -, hcount⟩ := h.source.eq_of_ne_zero hload.1
    rw [consume, if_pos hload]
    refine ⟨h.source.of_count rfl (by simp), h.sink.of_count rfl (by simp), ?_⟩
    exact h.respects.snoc ⟨hr, List.count_eq_zero.mp hcount⟩
  · rw [consume, if_neg hload]
    exact h

lemma inv_closeSource (h : Inv r w s) (hne : r ≠ w) : Inv r w s.closeSource.1 := by
  by_cases hzero : s.event.fds.1 = 0
  · rw [closeSource, if_pos hzero]
    exact h
  · obtain ⟨hr, hopen, hcount⟩ := h.source.eq_of_ne_zero hzero
    have hsink := h.sink.close_of_ne hne
    rw [closeSource_of_open hzero (hr ▸ hopen), hr]
    refine ⟨Or.inr ⟨rfl, by simp [close, hcount]⟩, hsink, ?_⟩
    exact h.respects.snoc (Or.inl rfl)

lemma inv_closeSink (h : Inv r w s) (hne : r ≠ w) : Inv r w s.closeSink.1 := by
  by_cases hzero : s.event.fds.2 = 0
  · rw [closeSink, if_pos hzero]
    exact h
  · obtain ⟨hw, hopen, hcount⟩ := h.sink.eq_of_ne_zero hzero
    have hsource := h.source.close_of_ne (Ne.symm hne)
    rw [closeSink_of_open hzero (hw ▸ hopen), hw]
    refine ⟨hsource, Or.inr ⟨rfl, by simp [close, hcount]⟩, ?_⟩
    exact h.respects.snoc (Or.inr rfl)

lemma inv_call (h : Inv r w s) (hne : r ≠ w) (op : Op)
    (hguard : ∀ ok, op = .fire ok → ¬ s.Unguarded) : Inv r w (s.call op) := by
  cases op with
  | fire ok => exact inv_fire h ok (hguard ok rfl)
  | consume ok => exact inv_consume h ok
  | closeSource => exact inv_closeSource h hne
  | closeSink => exact inv_closeSink h hne

lemma inv_foldl (h : Inv r w s) (hne : r ≠ w) (ops : List Op)
    (hguard : ∀ l ok l', ops = l ++ .fire ok :: l' → ¬ (l.foldl call s).Unguarded) :
    Inv r w (ops.foldl call s) := by
  induction ops using List.reverseRecOn with
  | nil => exact h
  | append_singleton ops op ih =>
    rw [List.foldl_append]
    refine inv_call (ih fun l ok l' hl => ?_) hne op fun ok hop => ?_
    · exact hguard l ok (l' ++ [op]) (by rw [hl]; simp)
    · exact hguard ops ok [] (by rw [hop])

/-- A descriptor that is not the marker and whose member is the marker has been closed. -/
lemma Keeps.count_eq_one {fd cur : ℤ} (h : Keeps fd cur s) (hfd : fd ≠ 0) (hcur : cur = 0) :
    s.calls.count (.close fd) = 1 := by
  rcases h with ⟨heq, -⟩ | ⟨-, hcount⟩
  · exact absurd (heq.symm.trans hcur) hfd
  · exact hcount

lemma Keeps.marked_or_open {fd cur : ℤ} (h : Keeps fd cur s) : cur = 0 ∨ cur ∈ s.opened := by
  rcases h with ⟨rfl, hopen, -⟩ | ⟨hzero, -⟩
  · exact Or.inr hopen
  · exact Or.inl hzero

lemma closeSource_marks (h : s.event.fds.1 = 0 ∨ s.event.fds.1 ∈ s.opened) :
    s.closeSource.1.event.fds.1 = 0 := by
  by_cases hzero : s.event.fds.1 = 0
  · rw [closeSource, if_pos hzero]
    exact hzero
  · rw [closeSource_of_open hzero (h.resolve_left hzero)]

lemma closeSink_marks (h : s.event.fds.2 = 0 ∨ s.event.fds.2 ∈ s.opened) :
    s.closeSink.1.event.fds.2 = 0 := by
  by_cases hzero : s.event.fds.2 = 0
  · rw [closeSink, if_pos hzero]
    exact hzero
  · rw [closeSink_of_open hzero (h.resolve_left hzero)]

lemma closeSink_source (s : Process) : s.closeSink.1.event.fds.1 = s.event.fds.1 := by
  simp only [closeSink]
  split
  · rfl
  · dsimp only
    split <;> rfl

lemma Inv.owned (h : Inv r w s) (hne : r ≠ w) (hr : r ≠ 0) (hw : w ≠ 0) :
    Owned r w s.destroy.calls := by
  have hsource := inv_closeSource h hne
  have hboth := inv_closeSink hsource hne
  refine ⟨hboth.respects, hboth.source.count_eq_one hr ?_, hboth.sink.count_eq_one hw ?_⟩
  · rw [closeSink_source]
    exact closeSource_marks h.source.marked_or_open
  · exact closeSink_marks hsource.sink.marked_or_open

/-! ### The calls that cannot be undone -/

/-- The calls of `t` are those of `s` and others, none of which closes the descriptor 0. -/
def Extends (s t : Process) : Prop :=
  ∃ l, t.calls = s.calls ++ l ∧ Syscall.close 0 ∉ l

lemma Extends.refl (s : Process) : Extends s s := ⟨[], by simp, by simp⟩

lemma Extends.trans {t u : Process} (h : Extends s t) (h' : Extends t u) : Extends s u := by
  obtain ⟨l, hl, hzero⟩ := h
  obtain ⟨l', hl', hzero'⟩ := h'
  exact ⟨l ++ l', by rw [hl', hl, List.append_assoc], by simp [hzero, hzero']⟩

/-- `CloseSource` and `CloseSink` take the descriptor 0 for an end that is closed. -/
lemma extends_closeSource (s : Process) : Extends s s.closeSource.1 := by
  by_cases hzero : s.event.fds.1 = 0
  · rw [closeSource, if_pos hzero]
    exact .refl s
  · refine ⟨[.close s.event.fds.1], ?_, by simpa using Ne.symm hzero⟩
    simp only [closeSource, if_neg hzero]
    split <;> rfl

lemma extends_closeSink (s : Process) : Extends s s.closeSink.1 := by
  by_cases hzero : s.event.fds.2 = 0
  · rw [closeSink, if_pos hzero]
    exact .refl s
  · refine ⟨[.close s.event.fds.2], ?_, by simpa using Ne.symm hzero⟩
    simp only [closeSink, if_neg hzero]
    split <;> rfl

lemma extends_call (s : Process) (op : Op) : Extends s (s.call op) := by
  cases op with
  | fire ok =>
    simp only [call, fire]
    split
    · exact ⟨[.write s.event.fds.2], rfl, by simp⟩
    · exact .refl s
  | consume ok =>
    simp only [call, consume]
    split
    · exact ⟨[.read s.event.fds.1], rfl, by simp⟩
    · exact .refl s
  | closeSource => exact extends_closeSource s
  | closeSink => exact extends_closeSink s

lemma extends_foldl (s : Process) (ops : List Op) : Extends s (ops.foldl call s) := by
  induction ops generalizing s with
  | nil => exact .refl s
  | cons op ops ih => exact (extends_call s op).trans (ih (s.call op))

lemma extends_destroy (s : Process) : Extends s s.destroy :=
  (extends_closeSource s).trans (extends_closeSink _)

lemma close_zero_not_mem (opened : Finset ℤ) (fds : ℤ × ℤ) (ops : List Op) :
    Syscall.close 0 ∉ (life opened fds ops).calls := by
  obtain ⟨l, hl, hzero⟩ :=
    (extends_foldl (start opened fds) ops).trans (extends_destroy _)
  rw [life, hl]
  simpa [start] using hzero

lemma write_zero_of_unguarded {opened : Finset ℤ} {fds : ℤ × ℤ} {l : List Op}
    (h : (l.foldl call (start opened fds)).Unguarded) (ok : Bool) (l' : List Op) :
    ∃ before, before ++ [.write 0] <+: (life opened fds (l ++ .fire ok :: l')).calls := by
  obtain ⟨hsource, hsink, hfired⟩ := h
  obtain ⟨l₁, hl₁, -⟩ :=
    (extends_foldl ((l.foldl call (start opened fds)).call (.fire ok)) l').trans
      (extends_destroy _)
  have hfire : ((l.foldl call (start opened fds)).call (.fire ok)).calls =
      (l.foldl call (start opened fds)).calls ++ [.write 0] := by
    simp only [call, fire, if_pos (And.intro hsource hfired), hsink]
  refine ⟨(l.foldl call (start opened fds)).calls, l₁, ?_⟩
  rw [life, List.foldl_append, List.foldl_cons, hl₁, hfire]

/-- An event touches only its own descriptors, and closes them, exactly when the pipe did not
get the descriptor 0 and no `Fire` is called with the sink closed, the source open and the
flag not set. -/
theorem owned_iff (opened : Finset ℤ) {r w : ℤ} (hne : r ≠ w) (ops : List Op) :
    Owned r w (life opened (r, w) ops).calls ↔
      r ≠ 0 ∧ w ≠ 0 ∧ ∀ l ok l', ops = l ++ .fire ok :: l' →
        ¬ (l.foldl call (start opened (r, w))).Unguarded := by
  constructor
  · intro h
    have hzero := close_zero_not_mem opened (r, w) ops
    have hr : r ≠ 0 := by
      rintro rfl
      have hcount := h.source_once
      rw [List.count_eq_zero.mpr hzero] at hcount
      cases hcount
    have hw : w ≠ 0 := by
      rintro rfl
      have hcount := h.sink_once
      rw [List.count_eq_zero.mpr hzero] at hcount
      cases hcount
    refine ⟨hr, hw, fun l ok l' hops hunguarded => ?_⟩
    obtain ⟨before, hbefore⟩ := write_zero_of_unguarded hunguarded ok l'
    rw [← hops] at hbefore
    exact hw (h.respects before _ hbefore).1.symm
  · rintro ⟨hr, hw, hguard⟩
    exact (inv_foldl (inv_start opened (r, w)) hne ops hguard).owned hne hr hw

/-- An event whose owner fires, closes the sink while the flag is set, and fires again. -/
theorem owned_of_set : (3 : ℤ) ≠ 4 ∧
    Owned 3 4 (life ∅ (3, 4) [.fire true, .closeSink, .fire true, .consume true]).calls := by
  have hne : (3 : ℤ) ≠ 4 := by decide
  refine ⟨hne, (owned_iff ∅ hne _).mpr ⟨by decide, by decide, ?_⟩⟩
  rintro (_ | ⟨_, _ | ⟨_, _ | ⟨_, l⟩⟩⟩) ok l' hops hunguarded
  · exact absurd hunguarded.2.1 (by decide)
  · cases hops
  · -- the second `Fire` finds the flag set
    cases hops
    exact absurd hunguarded.2.2 (by decide)
  · simp [List.cons_eq_append_iff] at hops

/-- After `CloseSink`, `Fire` writes to the descriptor 0. -/
theorem not_owned : ¬ Owned 3 4 (life ∅ (3, 4) [.closeSink, .fire true]).calls := by
  intro h
  have hzero := h.respects [.close 4] (.write 0) (by decide)
  exact absurd hzero.1 (by decide)

end Process

end EventManager
