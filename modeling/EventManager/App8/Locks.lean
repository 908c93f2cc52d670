import EventManager.App8.Manager

/-!
# The locks of app8

`Produce` takes a lock inside of a condition, and releases it in the branch that the condition
guards.  When the queue behind the lock is empty the condition is false, and nobody releases
the lock any more.  `_runImpl` releases what it takes.  So the locks are released exactly when
`Produce` never finds a queue empty that it has locked, and then an event is dropped with the
poller outside of `Produce` only when a `try_lock` fails spuriously (`released_iff`).
-/

namespace EventManager.App8

open Steps

/-- `_runImpl` is between a `try_lock` that got the mutex and its `unlock`. -/
def RunPc.Holds (i : Slot) : RunPc → Prop
  | .emplaceBack j _ => j = i
  | .unlock j => j = i
  | _ => False

/-- `_runImpl` tries to lock the mutex `i`. -/
def RunPc.Tries (i : Slot) : RunPc → Prop
  | .tryLock j _ => j = i
  | _ => False

instance (i : Slot) (pc : RunPc) : Decidable (pc.Tries i) := by
  cases pc <;> simp only [RunPc.Tries] <;> infer_instance

/-- `Produce` is between a `try_lock` that got the mutex and its `unlock`. -/
def PollPc.Holds (i : Slot) : PollPc → Prop
  | .empty j => j = i
  | .swap j => j = i
  | .unlock j _ => j = i
  | _ => False

/-- The queue whose condition or branch `Produce` is in. -/
def PollPc.slot : PollPc → Option Slot
  | .tryLock i => some i
  | .empty i => some i
  | .swap i => some i
  | .unlock i _ => some i
  | _ => none

/-- `Produce` has left the queue `i` behind: it tries the second queue before the first. -/
def PollPc.Past (i : Slot) (pc : PollPc) : Prop :=
  (i = .two ∧ pc.slot = some .one) ∨ ∃ c events, pc = .consume c events

lemma PollPc.past_otherwise (i : Slot) : (PollPc.otherwise i).Past i := by
  cases i with
  | one => exact Or.inr ⟨_, _, rfl⟩
  | two => exact Or.inl ⟨rfl, rfl⟩

namespace ManagerA

/-- A thread that is outside of its function holds no mutex. -/
structure Released (s : ManagerA) : Prop where
  poller : s.poll = .outside → ∀ i, s.txMutex i ≠ some .poller
  manager : s.run = .outside → ∀ i, s.txMutex i ≠ some .manager

/-- The step is a test for emptiness, made by `Produce` with the mutex locked, that finds the
queue empty. -/
def Leaks (s : ManagerA) : Action → Prop
  | .poll _ => ∃ i, s.poll = .empty i ∧ s.txQueue i = []
  | .run _ _ => False

instance (s : ManagerA) (a : Action) : Decidable (s.Leaks a) := by
  cases a <;> simp only [Leaks] <;> infer_instance

/-- The step is a `try_lock` of `_runImpl` on the mutex `i`, and it fails. -/
def Fails (s : ManagerA) (i : Slot) : Action → Prop
  | .run _ granted => s.run.Tries i ∧ s.tryLock .manager i granted = false
  | .poll _ => False

instance (s : ManagerA) (i : Slot) (a : Action) : Decidable (s.Fails i a) := by
  cases a <;> simp only [Fails] <;> infer_instance

/-- The run drops an event: the steps `p` and `q` are the two calls of `try_lock` of one call of
`_runImpl`, with only the poller at work in between, and both fail. -/
def Drops (tr : List (ManagerA × Action)) (p q : ManagerA × Action) : Prop :=
  p.1.Fails .one p.2 ∧ q.1.Fails .two q.2 ∧ ∃ tr₁ between tr₂,
    tr = tr₁ ++ p :: (between ++ q :: tr₂) ∧ ∀ r ∈ between, ∃ granted, r.2 = .poll granted

/-- The locks are released in every state of the run `tr` to `t`, and when it drops an event
both calls of `try_lock` fail while the poller is in `Produce`. -/
structure ReleasesAll (tr : List (ManagerA × Action)) (t : ManagerA) : Prop where
  released : ∀ p ∈ tr, p.1.Released
  last : t.Released
  drops : ∀ p q, Drops tr p q → p.1.poll ≠ .outside ∧ q.1.poll ≠ .outside

/-- No step of the run leaks a mutex, and no `try_lock` of a call of `_runImpl` that drops its
event fails on a mutex that nobody holds while the poller is outside of `Produce`. -/
structure Sound (tr : List (ManagerA × Action)) : Prop where
  leaks : ∀ p ∈ tr, ¬ p.1.Leaks p.2
  drops : ∀ p q, Drops tr p q → (p.1.txMutex .one = none → p.1.poll ≠ .outside) ∧
    (q.1.txMutex .two = none → q.1.poll ≠ .outside)

lemma Drops.mem {tr : List (ManagerA × Action)} {p q : ManagerA × Action} (h : Drops tr p q) :
    p ∈ tr ∧ q ∈ tr := by
  obtain ⟨-, -, tr₁, between, tr₂, rfl, -⟩ := h
  simp

/-! ### Who holds a mutex -/

/-- The manager's thread holds the mutexes that it is using, and the poller holds those that it
is using, and maybe others. -/
structure Inv (s : ManagerA) : Prop where
  manager : ∀ i, s.txMutex i = some .manager ↔ s.run.Holds i
  poller : ∀ i, s.poll.Holds i → s.txMutex i = some .poller

/-- The poller holds no other mutexes. -/
def Tidy (s : ManagerA) : Prop := ∀ i, s.txMutex i = some .poller → s.poll.Holds i

variable {s t : ManagerA} {granted : Bool}

lemma inv_start (fds : ℤ × ℤ) (txQueue : Slot → List UPtr) : (start fds txQueue).Inv where
  manager i := by simp [start, RunPc.Holds]
  poller i h := h.elim

/-- The manager's thread gives the poller no mutex. -/
lemma txMutex_runs (hs : s.Runs granted t) {i : Slot} (hi : t.txMutex i = some .poller) :
    s.txMutex i = some .poller := by
  cases hs with
  | call data hrun => exact hi
  | lock j event hrun hfree =>
    by_cases hij : i = j
    · simp [hij] at hi
    · simpa [hij] using hi
  | busy j event hrun hfails => exact hi
  | emplaceBack j event hrun => exact hi
  | unlock j hrun =>
    by_cases hij : i = j
    · simp [hij] at hi
    · simpa [hij] using hi
  | finish ev tx dropped run' hrun hrun' => exact hi

/-- It takes none away from the poller. -/
lemma Inv.kept (h : s.Inv) (hs : s.Runs granted t) {i : Slot} (hi : s.txMutex i = some .poller) :
    t.txMutex i = some .poller := by
  cases hs with
  | call data hrun => exact hi
  | lock j event hrun hfree =>
    have hij : i ≠ j := by
      rintro rfl
      exact hfree hi
    simpa [hij] using hi
  | busy j event hrun hfails => exact hi
  | emplaceBack j event hrun => exact hi
  | unlock j hrun =>
    have hj : s.txMutex j = some .manager := (h.manager j).mpr (by rw [hrun]; rfl)
    have hij : i ≠ j := by
      rintro rfl
      rw [hj] at hi
      cases hi
    simpa [hij] using hi
  | finish ev tx dropped run' hrun hrun' => exact hi

lemma poll_runs (hs : s.Runs granted t) : t.poll = s.poll := by
  cases hs <;> rfl

lemma inv_runs (h : s.Inv) (hs : s.Runs granted t) : t.Inv := by
  refine ⟨fun j => ?_, fun j hj => h.kept hs (h.poller j (poll_runs hs ▸ hj))⟩
  have hm := h.manager j
  cases hs with
  | call data hrun => simpa [RunPc.Holds, hrun] using hm
  | lock i event hrun hfree =>
    by_cases hji : j = i
    · simp [hji, RunPc.Holds]
    · simpa [hji, Ne.symm hji, RunPc.Holds, hrun] using hm
  | busy i event hrun hfails => cases i <;> simpa [RunPc.Holds, RunPc.busy, hrun] using hm
  | emplaceBack i event hrun => simpa [RunPc.Holds, hrun] using hm
  | unlock i hrun =>
    by_cases hji : j = i
    · simp [hji, RunPc.Holds]
    · simpa [hji, Ne.symm hji, RunPc.Holds, hrun] using hm
  | finish ev tx dropped run' hrun hrun' =>
    have hnot : s.txMutex j ≠ some .manager := by
      intro hheld
      have hholds := hm.mp hheld
      rcases hrun with hrun | hrun | ⟨pc, hrun⟩ <;> simp [hrun, RunPc.Holds] at hholds
    rcases hrun' with rfl | ⟨pc, rfl⟩ <;> simpa [RunPc.Holds] using hnot

lemma inv_produces (h : s.Inv) (hs : s.Produces granted t) : t.Inv := by
  obtain ⟨hm, hp⟩ := h
  cases hs with
  | call hpoll => exact ⟨hm, fun j hj => hj.elim⟩
  | lock i hpoll hfree =>
    refine ⟨fun j => ?_, fun j hj => ?_⟩
    · by_cases hji : j = i
      · subst hji
        simpa using fun hr => hfree ((hm j).mpr hr)
      · simpa [hji] using hm j
    · obtain rfl : i = j := hj
      simp
  | busy i hpoll hfails => exact ⟨hm, fun j hj => by cases i <;> exact hj.elim⟩
  | empty i hpoll hq => exact ⟨hm, fun j hj => by cases i <;> exact hj.elim⟩
  | nonempty i hpoll hq => exact ⟨hm, fun j hj => hp j (by rw [hpoll]; exact hj)⟩
  | swap i hpoll => exact ⟨hm, fun j hj => hp j (by rw [hpoll]; exact hj)⟩
  | unlock i events hpoll =>
    have hi : s.txMutex i = some .poller := hp i (by rw [hpoll]; rfl)
    refine ⟨fun j => ?_, fun j hj => hj.elim⟩
    by_cases hji : j = i
    · subst hji
      have hnot : ¬ s.run.Holds j := fun hr => by
        have hheld := (hm j).mpr hr
        rw [hi] at hheld
        cases hheld
      simpa using hnot
    · simpa [hji] using hm j
  | consume pc pc' events ev hpoll => exact ⟨hm, fun j hj => hj.elim⟩
  | finish pc events ev hpoll => exact ⟨hm, fun j hj => hj.elim⟩

lemma inv_step {fds : ℤ × ℤ} {txQueue : Slot → List UPtr} {a : Action} (h : s.Inv)
    (ha : (manager fds txQueue).next s a = some t) : t.Inv := by
  cases a with
  | run data granted =>
    cases ha
    exact inv_runs h (runs_runImpl s data granted)
  | poll granted => exact inv_produces h (produces_produce ha)

lemma tidy_runs (h : s.Tidy) (hs : s.Runs granted t) : t.Tidy := by
  intro i hi
  rw [poll_runs hs]
  exact h i (txMutex_runs hs hi)

lemma tidy_step {fds : ℤ × ℤ} {txQueue : Slot → List UPtr} {a : Action} (h : s.Tidy)
    (hleak : ¬ s.Leaks a) (ha : (manager fds txQueue).next s a = some t) : t.Tidy := by
  cases a with
  | run data granted =>
    cases ha
    exact tidy_runs h (runs_runImpl s data granted)
  | poll granted =>
    have hnone : ∀ j, ¬ s.poll.Holds j → s.txMutex j ≠ some .poller :=
      fun j hj hheld => hj (h j hheld)
    intro j hheld
    cases produces_produce ha with
    | call hpoll => exact absurd hheld (hnone j (by rw [hpoll]; exact id))
    | lock i hpoll hfree =>
      by_cases hji : j = i
      · exact hji.symm
      · exact absurd (by simpa [hji] using hheld) (hnone j (by rw [hpoll]; exact id))
    | busy i hpoll hfails => exact absurd hheld (hnone j (by rw [hpoll]; exact id))
    | empty i hpoll hq => exact absurd ⟨i, hpoll, hq⟩ hleak
    | nonempty i hpoll hq =>
      have hholds := h j hheld
      rw [hpoll] at hholds
      exact hholds
    | swap i hpoll =>
      have hholds := h j hheld
      rw [hpoll] at hholds
      exact hholds
    | unlock i events hpoll =>
      by_cases hji : j = i
      · simp [hji] at hheld
      · refine absurd (by simpa [hji] using hheld) (hnone j ?_)
        rw [hpoll]
        exact Ne.symm hji
    | consume pc pc' events ev hpoll =>
      exact absurd hheld (hnone j (by rw [hpoll]; exact id))
    | finish pc events ev hpoll => exact absurd hheld (hnone j (by rw [hpoll]; exact id))

lemma Inv.released (h : s.Inv) (htidy : s.Tidy) : s.Released where
  poller hpoll i hheld := by
    have hholds := htidy i hheld
    rw [hpoll] at hholds
    exact hholds
  manager hrun i hheld := by
    have hholds := (h.manager i).mp hheld
    rw [hrun] at hholds
    exact hholds

/-- When a `try_lock` of `_runImpl` fails and a tidy poller is outside of `Produce`, then nobody
holds the mutex. -/
lemma Inv.free_of_fails (h : s.Inv) (htidy : s.Tidy) {i : Slot} {a : Action} (ha : s.Fails i a)
    (hpoll : s.poll = .outside) : s.txMutex i = none := by
  cases a with
  | poll granted => exact ha.elim
  | run data granted =>
    cases hmutex : s.txMutex i with
    | none => rfl
    | some thread =>
      cases thread with
      | manager =>
        have hholds := (h.manager i).mp hmutex
        have htries := ha.1
        cases hrun : s.run <;> simp_all [RunPc.Tries, RunPc.Holds]
      | poller => exact absurd hpoll fun hout => (h.released htidy).poller hout i hmutex

/-! ### A lock that is not released -/

/-- `Produce` has not released a mutex, and will not. -/
def Stuck (s : ManagerA) : Prop := ∃ i, s.txMutex i = some .poller ∧ s.poll.Past i

/-- A mutex is still held, by a poller that will not release it in this call of `Produce` or is
outside of it. -/
def Lost (s : ManagerA) : Prop :=
  ∃ i, s.txMutex i = some .poller ∧ (s.poll.Past i ∨ s.poll = .outside)

lemma lost_of_leaks {fds : ℤ × ℤ} {txQueue : Slot → List UPtr} {a : Action} (h : s.Inv)
    (hleak : s.Leaks a) (ha : (manager fds txQueue).next s a = some t) : t.Lost := by
  cases a with
  | run data granted => exact hleak.elim
  | poll granted =>
    obtain ⟨i, hpoll, hq⟩ := hleak
    have hheld : s.txMutex i = some .poller := h.poller i (by rw [hpoll]; rfl)
    simp only [manager, produce, hpoll, if_pos hq] at ha
    cases ha
    exact ⟨i, hheld, Or.inl (PollPc.past_otherwise i)⟩

lemma lost_step {fds : ℤ × ℤ} {txQueue : Slot → List UPtr} {a : Action} (h : s.Inv)
    (hstuck : s.Stuck) (ha : (manager fds txQueue).next s a = some t) : t.Lost := by
  obtain ⟨i, hheld, hpast⟩ := hstuck
  cases a with
  | run data granted =>
    cases ha
    have hs := runs_runImpl s data granted
    exact ⟨i, h.kept hs hheld, Or.inl (by rw [poll_runs hs]; exact hpast)⟩
  | poll granted =>
    -- in the branch of a queue, the mutex that is stuck is the second one
    have hslot : ∀ j, s.poll.slot = some j → i = .two ∧ j = .one := by
      intro j hj
      rcases hpast with ⟨hi, hone⟩ | ⟨c, events, hpc⟩
      · exact ⟨hi, Option.some.inj (hj.symm.trans hone)⟩
      · rw [hpc] at hj
        cases hj
    cases produces_produce ha with
    | call hpoll => exact absurd (hpoll ▸ hpast) (by simp [PollPc.Past, PollPc.slot])
    | lock j hpoll hfree =>
      obtain ⟨rfl, rfl⟩ := hslot j (by rw [hpoll]; rfl)
      exact ⟨.two, by simpa using hheld, Or.inl (Or.inl ⟨rfl, rfl⟩)⟩
    | busy j hpoll hfails =>
      obtain ⟨rfl, rfl⟩ := hslot j (by rw [hpoll]; rfl)
      exact ⟨.two, hheld, Or.inl (Or.inr ⟨_, _, rfl⟩)⟩
    | empty j hpoll hq =>
      obtain ⟨rfl, rfl⟩ := hslot j (by rw [hpoll]; rfl)
      exact ⟨.two, hheld, Or.inl (Or.inr ⟨_, _, rfl⟩)⟩
    | nonempty j hpoll hq =>
      obtain ⟨rfl, rfl⟩ := hslot j (by rw [hpoll]; rfl)
      exact ⟨.two, hheld, Or.inl (Or.inl ⟨rfl, rfl⟩)⟩
    | swap j hpoll =>
      obtain ⟨rfl, rfl⟩ := hslot j (by rw [hpoll]; rfl)
      exact ⟨.two, hheld, Or.inl (Or.inl ⟨rfl, rfl⟩)⟩
    | unlock j events hpoll =>
      obtain ⟨rfl, rfl⟩ := hslot j (by rw [hpoll]; rfl)
      exact ⟨.two, by simpa using hheld, Or.inl (Or.inr ⟨_, _, rfl⟩)⟩
    | consume pc pc' events ev hpoll => exact ⟨i, hheld, Or.inl (Or.inr ⟨_, _, rfl⟩)⟩
    | finish pc events ev hpoll => exact ⟨i, hheld, Or.inr rfl⟩

lemma Lost.not_released (h : s.Lost) (hpoll : s.poll = .outside) : ¬ s.Released := by
  obtain ⟨i, hheld, -⟩ := h
  exact fun hreleased => hreleased.poller hpoll i hheld

lemma Lost.stuck (h : s.Lost) (hreleased : s.Released) : s.Stuck := by
  obtain ⟨i, hheld, hpast | hpoll⟩ := h
  · exact ⟨i, hheld, hpast⟩
  · exact absurd hheld (hreleased.poller hpoll i)

/-! ### Runs -/

section Runs

variable {fds : ℤ × ℤ} {txQueue : Slot → List UPtr} {tr : List (ManagerA × Action)}
  {p : ManagerA × Action}

lemma tidy_of_run (hr : (manager fds txQueue).Run (.start fds txQueue) tr t)
    (hleak : ∀ p ∈ tr, ¬ p.1.Leaks p.2) :
    (∀ p ∈ tr, p.1.Inv ∧ p.1.Tidy) ∧ t.Inv ∧ t.Tidy := by
  have hstep : ∀ s a u, (s.Inv ∧ s.Tidy) → ¬ s.Leaks a →
      (manager fds txQueue).next s a = some u → u.Inv ∧ u.Tidy :=
    fun s a u hI ha hs => ⟨inv_step hI.1 hs, tidy_step hI.2 ha hs⟩
  have hstart : (start fds txQueue).Inv ∧ (start fds txQueue).Tidy :=
    ⟨inv_start fds txQueue, fun i hi => by cases hi⟩
  exact ⟨fun p hp => hr.invariant_mem (I := fun s => s.Inv ∧ s.Tidy) hstep hleak hstart hp,
    hr.invariant (I := fun s => s.Inv ∧ s.Tidy) hstep hleak hstart⟩

/-- A mutex that a step of the run leaks stays with the poller until `Produce` returns, when the
locks are released in the states of the run. -/
lemma lost_of_run (hr : (manager fds txQueue).Run (.start fds txQueue) tr t)
    (hreleased : ∀ p ∈ tr, p.1.Released) (hp : p ∈ tr) (hleak : p.1.Leaks p.2) : t.Lost := by
  have hI : p.1.Inv := hr.invariant_mem (I := Inv) (C := fun _ _ => True)
    (fun s a u hI _ hs => inv_step hI hs) (fun _ _ => trivial) (inv_start fds txQueue) hp
  obtain ⟨tr₁, tr₂, rfl, -, hrest⟩ := hr.visited hp
  obtain ⟨-, u, hu, hrest⟩ := hrest.cons_inv
  have hlost : t.Inv ∧ t.Lost := by
    refine hrest.invariant (I := fun s => s.Inv ∧ s.Lost) (C := fun s _ => s.Released) ?_ ?_
      ⟨inv_step hI hu, lost_of_leaks hI hleak hu⟩
    · rintro s a v ⟨hs, hlost⟩ hreleased ha
      exact ⟨inv_step hs ha, lost_step hs (hlost.stuck hreleased) ha⟩
    · intro q hq
      exact hreleased q (by simp [hq])
  exact hlost.2

end Runs

end ManagerA

open ManagerA

/-- **The locks of app8.**  In a run in which `Produce` finds no queue empty that it has
locked, every lock is released in every state, and an event is dropped only with the poller in
`Produce`, unless a `try_lock` fails spuriously with the poller outside; and in a run that ends
outside of `Produce` this is so only then. -/
theorem released_iff {fds : ℤ × ℤ} {txQueue : Slot → List UPtr} {t : ManagerA}
    {tr : List (ManagerA × Action)}
    (hr : (manager fds txQueue).Run (.start fds txQueue) tr t) :
    (Sound tr → ReleasesAll tr t) ∧ (t.poll = .outside → ReleasesAll tr t → Sound tr) := by
  constructor
  · rintro ⟨hleak, hdrops⟩
    obtain ⟨hvisited, hlast⟩ := tidy_of_run hr hleak
    refine ⟨fun p hp => (hvisited p hp).1.released (hvisited p hp).2, hlast.1.released hlast.2,
      fun p q hdrop => ?_⟩
    obtain ⟨hp, hq⟩ := hdrop.mem
    obtain ⟨hfree₁, hfree₂⟩ := hdrops p q hdrop
    obtain ⟨hfails₁, hfails₂, -⟩ := hdrop
    -- a call that fails with the poller outside has failed on a free mutex
    exact ⟨fun hpoll => hfree₁ ((hvisited p hp).1.free_of_fails (hvisited p hp).2 hfails₁ hpoll)
        hpoll,
      fun hpoll => hfree₂ ((hvisited q hq).1.free_of_fails (hvisited q hq).2 hfails₂ hpoll) hpoll⟩
  · rintro hpoll ⟨htr, ht, hdrops⟩
    exact ⟨fun p hp hleak => (lost_of_run hr htr hp hleak).not_released hpoll ht,
      fun p q hdrop => ⟨fun _ => (hdrops p q hdrop).1, fun _ => (hdrops p q hdrop).2⟩⟩

/-- Each queue holds one event. -/
def oneEach : Slot → List UPtr
  | .one => [some (.eventA 1)]
  | .two => [some (.eventA 2)]

/-- `try_lock` of the second mutex fails spuriously in `Produce`, which takes the first queue.  A
call of `_runImpl` then finds the first mutex locked, and the second one in the next `Produce`. -/
def dropping : List Action :=
  [Action.poll true, .poll false, .poll true, .run 3 true, .run 3 true] ++
    List.replicate 6 (Action.poll true) ++ List.replicate 2 (Action.run 3 true) ++
    List.replicate 4 (Action.poll true)

/-- An event is dropped while the poller is in `Produce`, and all locks are released. -/
theorem released_of_dropping : ∃ tr s, (manager (3, 4) oneEach).Run (.start (3, 4) oneEach) tr s ∧
    s.poll = .outside ∧ s.eventTxDropped = 1 ∧ ReleasesAll tr s := by
  obtain ⟨s, hs, hpoll, hdropped, hleak, hfree⟩ : ∃ s, (manager (3, 4) oneEach).exec
      (.start (3, 4) oneEach) dropping = some s ∧ s.poll = .outside ∧ s.eventTxDropped = 1 ∧
      (∀ p ∈ (manager (3, 4) oneEach).trace (.start (3, 4) oneEach) dropping,
        ¬ p.1.Leaks p.2) ∧
      ∀ p ∈ (manager (3, 4) oneEach).trace (.start (3, 4) oneEach) dropping,
        ∀ i, p.1.Fails i p.2 → p.1.poll ≠ .outside :=
    ⟨_, rfl, rfl, rfl, by decide, by decide⟩
  refine ⟨_, s, Machine.run_of_exec hs, hpoll, hdropped,
    (released_iff (Machine.run_of_exec hs)).1 ⟨hleak, fun p q hdrop => ?_⟩⟩
  exact ⟨fun _ => hfree p hdrop.mem.1 .one hdrop.1, fun _ => hfree q hdrop.mem.2 .two hdrop.2.1⟩

/-- Both queues are empty: `Produce` returns with both mutexes locked. -/
theorem not_released : ∃ s, (manager (3, 4) fun _ => []).Reachable s ∧ s.poll = .outside ∧
    s.txMutex .one = some .poller ∧ s.txMutex .two = some .poller ∧ ¬ s.Released := by
  have h₀ : (manager (3, 4) fun _ => []).Reachable (.start (3, 4) fun _ => []) := .of_init rfl
  obtain ⟨s, hs, hpoll, hone, htwo⟩ : ∃ s, (manager (3, 4) fun _ => []).exec
      (.start (3, 4) fun _ => []) (List.replicate 6 (Action.poll true)) = some s ∧
      s.poll = .outside ∧ s.txMutex .one = some .poller ∧ s.txMutex .two = some .poller :=
    ⟨_, rfl, rfl, rfl, rfl⟩
  exact ⟨s, h₀.exec hs, hpoll, hone, htwo, fun hreleased => hreleased.poller hpoll .one hone⟩

end EventManager.App8
