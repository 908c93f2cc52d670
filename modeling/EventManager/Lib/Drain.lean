import EventManager.Lib.Machine

/-!
# Draining a queue that is being refilled

A consumer takes one element after the other out of a queue until it finds the queue empty,
and meanwhile a producer puts further elements in.  How often the loop goes round is not a
function of the queue at any moment: every iteration takes an element that was in the queue
at the start or has been put in since, and there are no other iterations
(`Drain.iterations_le`).

An element is taken before its slot is freed, so a drain is between two tests of the queue
in one of two phases.
-/

namespace Steps

/-- The step that a drain takes next. -/
inductive Drain.Phase
  /-- The test whether the queue is empty. -/
  | test
  /-- An iteration has begun: the first element is taken. -/
  | take
  /-- The slot of the element is freed. -/
  | free
  /-- The queue was found empty. -/
  | done
deriving DecidableEq, Repr

/-- A drain in progress. -/
structure Drain (α : Type*) where
  /-- The step that comes next. -/
  phase : Drain.Phase
  /-- What is queued and has not been taken, oldest first. -/
  queued : List α
  /-- What has been taken, in order. -/
  taken : List α
  /-- The iterations that have begun. -/
  iterations : ℕ
  /-- What has been put in since the drain began, in order. -/
  pushed : List α

namespace Drain

variable {α : Type*}

/-- The steps of the producer and of the consumer. -/
inductive Action (α : Type*)
  | push (a : α)
  | loop

/-- A drain that is about to begin. -/
def start (queue : List α) : Drain α := ⟨.test, queue, [], 0, []⟩

/-- One step of the loop. -/
def loop (d : Drain α) : Option (Drain α) :=
  match d.phase, d.queued with
  | .test, [] => some { d with phase := .done }
  | .test, _ :: _ => some { d with phase := .take, iterations := d.iterations + 1 }
  | .take, a :: rest => some { d with phase := .free, queued := rest, taken := d.taken ++ [a] }
  | .free, _ => some { d with phase := .test }
  | _, _ => none

/-- The drain of a queue that holds `queue` at the start. -/
def machine (queue : List α) : Machine (Drain α) (Action α) where
  init d := d = start queue
  next d
    | .push a => some { d with queued := d.queued ++ [a], pushed := d.pushed ++ [a] }
    | .loop => d.loop

lemma loop_cases {d d' : Drain α} (h : d.loop = some d') :
    (d.phase = .test ∧ d.queued = [] ∧ d' = { d with phase := .done }) ∨
    (d.phase = .test ∧ d.queued ≠ [] ∧
      d' = { d with phase := .take, iterations := d.iterations + 1 }) ∨
    (∃ a rest, d.phase = .take ∧ d.queued = a :: rest ∧
      d' = { d with phase := .free, queued := rest, taken := d.taken ++ [a] }) ∨
    (d.phase = .free ∧ d' = { d with phase := .test }) := by
  simp only [loop] at h
  split at h
  · rename_i hphase hq
    exact Or.inl ⟨hphase, hq, (Option.some.inj h).symm⟩
  · rename_i hphase hq
    exact Or.inr (Or.inl ⟨hphase, by simp [hq], (Option.some.inj h).symm⟩)
  · rename_i a rest hphase hq
    exact Or.inr (Or.inr (Or.inl ⟨a, rest, hphase, hq, (Option.some.inj h).symm⟩))
  · rename_i hphase
    exact Or.inr (Or.inr (Or.inr ⟨hphase, (Option.some.inj h).symm⟩))
  · cases h

/-- What has been taken and what has not is what was there and what was put in, and every
iteration takes one element. -/
structure Inv (queue : List α) (d : Drain α) : Prop where
  append : d.taken ++ d.queued = queue ++ d.pushed
  iterations : d.iterations = d.taken.length + if d.phase = .take then 1 else 0
  queued : d.phase = .take → d.queued ≠ []

variable {queue : List α} {d d' : Drain α}

lemma Inv.push (h : d.Inv queue) (a : α) :
    Inv queue { d with queued := d.queued ++ [a], pushed := d.pushed ++ [a] } where
  append := by
    rw [← List.append_assoc, h.append, List.append_assoc]
  iterations := h.iterations
  queued _ := by simp

lemma Inv.loop (h : d.Inv queue) (hs : d.loop = some d') : d'.Inv queue := by
  have hiter := h.iterations
  rcases loop_cases hs with ⟨hphase, -, rfl⟩ | ⟨hphase, hq, rfl⟩ |
    ⟨a, rest, hphase, hq, rfl⟩ | ⟨hphase, rfl⟩
  all_goals rw [hphase] at hiter
  · exact ⟨h.append, by simpa using hiter, by simp⟩
  · exact ⟨h.append, by simpa using hiter, fun _ => hq⟩
  · -- the element that the iteration was begun for
    refine ⟨?_, by simpa using hiter, by simp⟩
    rw [← h.append, hq]
    simp
  · exact ⟨h.append, by simpa using hiter, by simp⟩

lemma inv_of_reachable (h : (machine queue).Reachable d) : d.Inv queue := by
  refine h.invariant (I := Inv queue) ?_ ?_
  · rintro d rfl
    exact ⟨by simp [start], rfl, by simp [start]⟩
  · intro d a d' hI hs
    cases a with
    | push a =>
      obtain rfl := Option.some.inj hs
      exact hI.push a
    | loop => exact hI.loop hs

/-- A drain begins at most one iteration for each element that was there at the start and for
each one that is put in meanwhile. -/
theorem iterations_le (h : (machine queue).Reachable d) :
    d.iterations ≤ queue.length + d.pushed.length := by
  obtain ⟨happend, hiter, hqueued⟩ := inv_of_reachable h
  have hlen := congrArg List.length happend
  simp only [List.length_append] at hlen
  by_cases hphase : d.phase = .take
  · have hpos := List.length_pos_iff.mpr (hqueued hphase)
    rw [if_pos hphase] at hiter
    omega
  · rw [if_neg hphase] at hiter
    omega

/-- Between two iterations each of them has taken one element. -/
theorem taken_length (h : (machine queue).Reachable d) (hphase : d.phase ≠ .take) :
    d.taken.length = d.iterations := by
  rw [(inv_of_reachable h).iterations, if_neg hphase, Nat.add_zero]

/-- The elements are taken in the order in which they were put in. -/
theorem taken_prefix (h : (machine queue).Reachable d) : d.taken <+: queue ++ d.pushed := by
  rw [← (inv_of_reachable h).append]
  exact List.prefix_append _ _

/-! ### Programs that drain a queue -/

/-- What a program that drains a queue shows: where its loop is, the slots of the queue, of
which the first one is spent until it is freed, what it has collected, the iterations of the
loop, and the log of what was put in. -/
structure Look (α : Type*) where
  /-- The step that the loop takes next. -/
  phase : Phase
  /-- The slots of the queue, oldest first. -/
  slots : List α
  /-- What the loop has collected, in order. -/
  taken : List α
  /-- The iterations that have begun. -/
  iterations : ℕ
  /-- What has ever been put into the queue, in order. -/
  log : List α

/-- The effect that a step of such a program may have. -/
inductive Look.Step (l : Look α) : Look α → Prop
  | stay : Step l l
  | push (a : α) : Step l { l with slots := l.slots ++ [a], log := l.log ++ [a] }
  | finish (h : l.phase = .test) (hslots : l.slots = []) : Step l { l with phase := .done }
  | begin (h : l.phase = .test) (hslots : l.slots ≠ []) :
      Step l { l with phase := .take, iterations := l.iterations + 1 }
  | take (a spent : α) (rest : List α) (h : l.phase = .take) (hslots : l.slots = a :: rest) :
      Step l { l with phase := .free, slots := spent :: rest, taken := l.taken ++ [a] }
  | free (spent : α) (rest : List α) (h : l.phase = .free) (hslots : l.slots = spent :: rest) :
      Step l { l with phase := .test, slots := rest }

/-- The program looks like the drain `d`, when its log was `log` at the start. -/
structure View (log : List α) (l : Look α) (d : Drain α) : Prop where
  phase : d.phase = l.phase
  taken : d.taken = l.taken
  iterations : d.iterations = l.iterations
  pushed : l.log = log ++ d.pushed
  /-- The slot of the element that was taken last is not freed yet. -/
  spent : l.phase = .free → ∃ a, l.slots = a :: d.queued
  queued : l.phase ≠ .free → l.slots = d.queued

variable {log : List α} {l l' : Look α}

/-- An effect of the program is a step of the drain, or none. -/
lemma View.step (h : View log l d) (hs : l.Step l') :
    View log l' d ∨ ∃ b d', (machine queue).next d b = some d' ∧ View log l' d' := by
  obtain ⟨hphase, htaken, hiter, hpushed, hspent, hqueued⟩ := h
  cases hs with
  | stay => exact Or.inl ⟨hphase, htaken, hiter, hpushed, hspent, hqueued⟩
  | push a =>
    refine Or.inr ⟨.push a, _, rfl, hphase, htaken, hiter, ?_, ?_, ?_⟩
    · simp [hpushed]
    · intro hfree
      obtain ⟨x, hx⟩ := hspent hfree
      exact ⟨x, by simp [hx]⟩
    · intro hfree
      simp [hqueued hfree]
  | finish h hslots =>
    have hq : d.queued = [] := by rw [← hqueued (by simp [h]), hslots]
    refine Or.inr ⟨.loop, { d with phase := .done }, ?_, rfl, htaken, hiter, hpushed, ?_, ?_⟩
    · simp [machine, loop, hphase, h, hq]
    · simp
    · intro _
      rw [hslots, hq]
  | begin h hslots =>
    have hq := hqueued (by simp [h])
    obtain ⟨a, rest, hcons⟩ := List.exists_cons_of_ne_nil hslots
    refine Or.inr ⟨.loop, { d with phase := .take, iterations := d.iterations + 1 }, ?_, rfl,
      htaken, by rw [hiter], hpushed, ?_, ?_⟩
    · simp [machine, loop, hphase, h, ← hq, hcons]
    · simp
    · exact fun _ => hq
  | take a spent rest h hslots =>
    have hq := hqueued (by simp [h])
    refine Or.inr ⟨.loop,
      { d with phase := .free, queued := rest, taken := d.taken ++ [a] }, ?_, rfl,
      by rw [htaken], hiter, hpushed, ?_, ?_⟩
    · simp [machine, loop, hphase, h, ← hq, hslots]
    · exact fun _ => ⟨spent, rfl⟩
    · simp
  | free spent rest h hslots =>
    obtain ⟨a, ha⟩ := hspent h
    have hrest : rest = d.queued := (List.cons.inj (hslots.symm.trans ha)).2
    refine Or.inr ⟨.loop, { d with phase := .test }, ?_, rfl, htaken, hiter, hpushed, ?_, ?_⟩
    · simp [machine, loop, hphase, h]
    · simp
    · exact fun _ => hrest

/-- A program whose steps have no other effects drains its queue. -/
theorem simulation {σ κ : Type*} {M : Machine σ κ} {look : σ → Look α}
    (hinit : ∀ s, M.init s → look s = ⟨.test, queue, [], 0, log⟩)
    (hstep : ∀ s a s', M.next s a = some s' → (look s).Step (look s')) :
    Simulation M (machine queue) fun s d => View log (look s) d where
  init s hs := by
    refine ⟨start queue, rfl, ?_⟩
    rw [hinit s hs]
    exact ⟨rfl, rfl, rfl, by simp [start], by simp, fun _ => rfl⟩
  step s a s' d hv ha := hv.step (hstep s a s' ha)

/-- What a program that drains a queue owes: an iteration for each element at most, and an
element for each iteration, in the order of the queue. -/
theorem reachable_accounted {σ κ : Type*} {M : Machine σ κ} {look : σ → Look α}
    (hsim : Simulation M (machine queue) fun s d => View log (look s) d) {s : σ}
    (hs : M.Reachable s) :
    ∃ pushed, (look s).log = log ++ pushed ∧
      (look s).iterations ≤ queue.length + pushed.length ∧
      ((look s).phase = .done → (look s).taken.length = (look s).iterations) ∧
      (look s).taken <+: queue ++ pushed := by
  obtain ⟨d, hd, hv⟩ := hsim.reachable hs
  refine ⟨d.pushed, hv.pushed, ?_, ?_, ?_⟩
  · rw [← hv.iterations]
    exact iterations_le hd
  · intro hdone
    rw [← hv.taken, ← hv.iterations]
    exact taken_length hd (by simp [hv.phase, hdone])
  · rw [← hv.taken]
    exact taken_prefix hd

end Drain

end Steps
