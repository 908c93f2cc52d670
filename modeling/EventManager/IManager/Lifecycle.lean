import EventManager.IManager.Basic
import EventManager.Lib.Machine

/-!
# The lifecycle of a manager

One owner thread calls `Run`, at most once, and `Stop`, any number of times and in any order;
`Run` starts the thread of the manager.  `lifecycle` is the machine of the two threads.  Its
log has the calls and returns of `_preRunImpl` and `_runImpl`, and the returns of `Stop`, in
the order in which they happen.

`lifecycle_wellBehaved` is about the log of every run: after a `Stop` has returned there is
no `_runImpl` in progress and none begins, `_preRunImpl` is called at most once and has
returned before the first `_runImpl` begins, and no two `_runImpl` overlap.
-/

namespace EventManager.IManager

open Steps

/-- What the log records. -/
inductive LogEntry
  | preRunCall
  | preRunReturn
  | runCall
  | runReturn
  | stopReturn
deriving DecidableEq, Repr

/-- The call that the owner is in. -/
inductive OwnerPc
  | idle
  /-- In `Run`, before the steps `rest`. -/
  | run (rest : List RunStatement)
  | stop (pc : StopPc)
deriving DecidableEq, Repr

/-- A manager, its owner and its thread. -/
structure Lifecycle where
  /-- The members of the manager. -/
  members : Members
  /-- The call that the owner is in. -/
  owner : OwnerPc
  /-- `Run` has been called. -/
  ran : Bool
  /-- The thread that `Run` has started. -/
  thread : Option ThreadPc
  /-- The calls and returns so far. -/
  log : List LogEntry

/-- A step of the owner, with `address` for the result of `AddCounter`, or of the thread. -/
inductive LifecycleAction
  | callRun
  | callStop
  | owner (address : ℕ)
  | thread
deriving DecidableEq, Repr

/-- What a step of the thread adds to the log. -/
@[simp] def ThreadPc.logged : ThreadPc → List LogEntry
  | .callPreRunImpl => [.preRunCall]
  | .preRunImpl => [.preRunReturn]
  | .callRunImpl => [.runCall]
  | .runImpl => [.runReturn]
  | _ => []

namespace Lifecycle

/-- A manager on which nothing has been called yet. -/
def start : Lifecycle := ⟨.create, .idle, false, none, []⟩

/-- One step of the call that the owner is in. -/
def ownerStep (s : Lifecycle) (address : ℕ) : Option Lifecycle :=
  match s.owner with
  | .idle => none
  | .run [] => some { s with owner := .idle }
  | .run (st :: rest) => some { s with
      members := s.members.runStep address st
      thread := st.spawn s.thread
      owner := .run rest }
  | .stop pc => (s.members.stop (s.thread = some .ended) pc).map fun p =>
      match p.2 with
      | some pc' => { s with members := p.1, owner := .stop pc' }
      | none => { s with members := p.1, owner := .idle, log := s.log ++ [.stopReturn] }

/-- One step of the thread. -/
def threadStep (s : Lifecycle) : Option Lifecycle :=
  s.thread.bind fun pc => (pc.next s.members.running).map fun pc' =>
    { s with thread := some pc', log := s.log ++ pc.logged }

end Lifecycle

/-- The owner and the thread of a manager. -/
def lifecycle : Machine Lifecycle LifecycleAction where
  init s := s = .start
  next s
    | .callRun =>
      if s.owner = .idle ∧ s.ran = false then some { s with owner := .run run, ran := true }
      else none
    | .callStop => if s.owner = .idle then some { s with owner := .stop .store } else none
    | .owner address => s.ownerStep address
    | .thread => s.threadStep

/-- What is promised about the log. -/
structure WellBehaved (log : List LogEntry) : Prop where
  /-- When `Stop` returns, no `_runImpl` is in progress, and none begins after it. -/
  stopped : ∀ l₁ l₂, log = l₁ ++ .stopReturn :: l₂ →
    l₁.count .runCall = l₁.count .runReturn ∧ .runCall ∉ l₂
  /-- `_preRunImpl` is called at most once. -/
  preRun_once : log.count .preRunCall ≤ 1
  /-- `_preRunImpl` has returned when a `_runImpl` begins. -/
  preRun_first : ∀ l₁ l₂, log = l₁ ++ .runCall :: l₂ → .preRunReturn ∈ l₁
  /-- When a `_runImpl` begins, no other one is in progress. -/
  alone : ∀ l₁ l₂, log = l₁ ++ .runCall :: l₂ → l₁.count .runCall = l₁.count .runReturn

/-! ### Logs that grow -/

/-- Where an entry can be in a log that has grown by one. -/
lemma split_snoc {α : Type} {l l₁ l₂ : List α} {e x : α} (h : l ++ [e] = l₁ ++ x :: l₂) :
    (l₂ = [] ∧ e = x ∧ l = l₁) ∨ ∃ l₂', l₂ = l₂' ++ [e] ∧ l = l₁ ++ x :: l₂' := by
  induction l₂ using List.reverseRecOn with
  | nil =>
    obtain ⟨hl, he⟩ := List.append_inj' h rfl
    exact Or.inl ⟨rfl, List.singleton_inj.mp he, hl⟩
  | append_singleton l₂ y =>
    have h' : l ++ [e] = (l₁ ++ x :: l₂) ++ [y] := by rw [h]; simp
    obtain ⟨hl, he⟩ := List.append_inj' h' rfl
    obtain rfl := List.singleton_inj.mp he
    exact Or.inr ⟨l₂, rfl, hl⟩

namespace WellBehaved

variable {log : List LogEntry}

/-- The log may grow by an entry that is in order where it comes. -/
lemma snoc (h : WellBehaved log) (e : LogEntry)
    (hstopReturn : e = .stopReturn → log.count .runCall = log.count .runReturn)
    (hpreRun : e = .preRunCall → log.count .preRunCall = 0)
    (hrunCall : e = .runCall → .stopReturn ∉ log ∧ .preRunReturn ∈ log ∧
      log.count .runCall = log.count .runReturn) :
    WellBehaved (log ++ [e]) := by
  refine ⟨?_, ?_, ?_, ?_⟩
  · intro l₁ l₂ hl
    rcases split_snoc hl with ⟨rfl, he, rfl⟩ | ⟨l₂, rfl, rfl⟩
    · exact ⟨hstopReturn he, by simp⟩
    · obtain ⟨hbalanced, hnone⟩ := h.stopped l₁ l₂ rfl
      refine ⟨hbalanced, ?_⟩
      -- a `_runImpl` would begin after a `Stop` that has returned
      have hne : e ≠ .runCall := by
        rintro rfl
        exact (hrunCall rfl).1 (by simp)
      simp [hnone, hne.symm]
  · have honce := h.preRun_once
    by_cases he : e = .preRunCall
    · have hzero := hpreRun he
      simp [he, hzero]
    · simpa [List.count_append, List.count_singleton, he] using honce
  · intro l₁ l₂ hl
    rcases split_snoc hl with ⟨rfl, he, rfl⟩ | ⟨l₂, rfl, rfl⟩
    · exact (hrunCall he).2.1
    · exact h.preRun_first l₁ l₂ rfl
  · intro l₁ l₂ hl
    rcases split_snoc hl with ⟨rfl, he, rfl⟩ | ⟨l₂, rfl, rfl⟩
    · exact (hrunCall he).2.2
    · exact h.alone l₁ l₂ rfl

end WellBehaved

/-! ### The thread and the log -/

/-- How the log belongs to what the thread does, when `_running` is `running`. -/
structure Logged (running : Bool) (thread : Option ThreadPc) (log : List LogEntry) : Prop where
  wellBehaved : WellBehaved log
  stopped : .stopReturn ∈ log →
    running = false ∧ thread ≠ some .callRunImpl ∧ thread ≠ some .runImpl
  balance : log.count .runCall = log.count .runReturn + if thread = some .runImpl then 1 else 0
  fresh : thread = none ∨ thread = some .setName ∨ thread = some .callPreRunImpl →
    log.count .preRunCall = 0
  prepared : thread = some .load ∨ thread = some .callRunImpl ∨ thread = some .runImpl →
    .preRunReturn ∈ log

namespace Logged

variable {running : Bool} {thread : Option ThreadPc} {log : List LogEntry}

lemma create : Logged true none [] := by
  refine ⟨⟨by simp, by simp, by simp, by simp⟩, by simp, by simp, by simp, by simp⟩

lemma construct (h : Logged running none log) : Logged running (some .setName) log := by
  refine ⟨h.wellBehaved, fun hs => ⟨(h.stopped hs).1, by simp, by simp⟩, ?_, ?_, by simp⟩
  · simpa using h.balance
  · exact fun _ => h.fresh (Or.inl rfl)

lemma store (h : Logged running thread log) : Logged false thread log :=
  ⟨h.wellBehaved, fun hs => ⟨rfl, (h.stopped hs).2⟩, h.balance, h.fresh, h.prepared⟩

lemma stopReturn (h : Logged false thread log) (hcall : thread ≠ some .callRunImpl)
    (hrun : thread ≠ some .runImpl) : Logged false thread (log ++ [.stopReturn]) := by
  have hbalance : log.count .runCall = log.count .runReturn := by
    simpa [hrun] using h.balance
  refine ⟨h.wellBehaved.snoc _ (fun _ => hbalance) (by simp) (by simp), ?_, ?_, ?_, ?_⟩
  · exact fun _ => ⟨rfl, hcall, hrun⟩
  · simp [hrun, hbalance]
  · intro hthread
    simpa using h.fresh hthread
  · intro hthread
    simpa using h.prepared hthread

lemma next {pc pc' : ThreadPc} (h : Logged running (some pc) log)
    (hpc : pc.next running = some pc') : Logged running (some pc') (log ++ pc.logged) := by
  obtain ⟨hlog, hstopped, hbalance, hfresh, hprepared⟩ := h
  cases pc with
  | setName =>
    obtain rfl := Option.some.inj hpc
    simp only [ThreadPc.logged, List.append_nil]
    refine ⟨hlog, fun hs => ⟨(hstopped hs).1, by simp, by simp⟩, by simpa using hbalance, ?_,
      by simp⟩
    exact fun _ => hfresh (by simp)
  | callPreRunImpl =>
    obtain rfl := Option.some.inj hpc
    have hzero := hfresh (by simp)
    refine ⟨hlog.snoc _ (by simp) (fun _ => hzero) (by simp), ?_, by simpa using hbalance,
      by simp, by simp⟩
    intro hs
    exact ⟨(hstopped (by simpa using hs)).1, by simp, by simp⟩
  | preRunImpl =>
    obtain rfl := Option.some.inj hpc
    refine ⟨hlog.snoc _ (by simp) (by simp) (by simp), ?_, by simpa using hbalance, by simp, ?_⟩
    · intro hs
      exact ⟨(hstopped (by simpa using hs)).1, by simp, by simp⟩
    · exact fun _ => by simp
  | load =>
    simp only [ThreadPc.logged, List.append_nil]
    have hready := hprepared (by simp)
    cases running with
    | true =>
      obtain rfl := Option.some.inj hpc
      -- a `Stop` that has returned has left `_running` false
      have hnone : .stopReturn ∉ log := fun hs => by simpa using (hstopped hs).1
      exact ⟨hlog, fun hs => absurd hs hnone, by simpa using hbalance, by simp,
        fun _ => hready⟩
    | false =>
      obtain rfl := Option.some.inj hpc
      exact ⟨hlog, fun _ => ⟨rfl, by simp, by simp⟩, by simpa using hbalance, by simp,
        by simp⟩
  | callRunImpl =>
    obtain rfl := Option.some.inj hpc
    have hready := hprepared (by simp)
    have hnone : .stopReturn ∉ log := fun hs => (hstopped hs).2.1 rfl
    have heq : log.count .runCall = log.count .runReturn := by simpa using hbalance
    refine ⟨hlog.snoc _ (by simp) (by simp) fun _ => ⟨hnone, hready, heq⟩, ?_, ?_, by simp, ?_⟩
    · intro hs
      exact absurd (by simpa using hs) hnone
    · simp [ThreadPc.logged, List.count_append, heq]
    · exact fun _ => by simp [hready]
  | runImpl =>
    obtain rfl := Option.some.inj hpc
    have hready := hprepared (by simp)
    have hnone : .stopReturn ∉ log := fun hs => (hstopped hs).2.2 rfl
    refine ⟨hlog.snoc _ (by simp) (by simp) (by simp), ?_, ?_, by simp, ?_⟩
    · intro hs
      exact absurd (by simpa using hs) hnone
    · simpa [ThreadPc.logged, List.count_append] using hbalance
    · exact fun _ => by simp [hready]
  | ended => cases hpc

end Logged

/-! ### The owner -/

namespace Lifecycle

/-- How the thread belongs to what the owner does. -/
structure Owned (s : Lifecycle) : Prop where
  /-- Without `Run` there is no thread. -/
  unran : s.ran = false → s.thread = none ∧ ∀ rest, s.owner ≠ .run rest
  /-- `Run` constructs the first thread, and one only. -/
  constructs : ∀ rest, s.owner = .run rest →
    rest.Nodup ∧ (.construct ∈ rest → s.thread = none)
  /-- `Run` returns with a joinable thread. -/
  assigns : ∀ rest, s.owner = .run rest → s.members.joinable = true ∨ .assign ∈ rest
  /-- Outside `Run`, a thread that cannot be joined has ended. -/
  unjoinable : s.members.joinable = false →
    s.thread = none ∨ s.thread = some .ended ∨ ∃ rest, s.owner = .run rest
  /-- After its store `Stop` finds `_running` false. -/
  stopping : s.owner = .stop .joinable ∨ s.owner = .stop .join → s.members.running = false

/-- The invariant. -/
structure Sound (s : Lifecycle) : Prop where
  owned : s.Owned
  logged : Logged s.members.running s.thread s.log

namespace Owned

variable {s : Lifecycle}

lemma of_run {rest : List RunStatement} (howner : s.owner = .run rest) (hran : s.ran = true)
    (hnodup : rest.Nodup) (hthread : .construct ∈ rest → s.thread = none)
    (hassign : s.members.joinable = true ∨ .assign ∈ rest) : s.Owned := by
  constructor
  · simp [hran]
  · intro rest' hrest
    obtain rfl := OwnerPc.run.inj (howner.symm.trans hrest)
    exact ⟨hnodup, hthread⟩
  · intro rest' hrest
    obtain rfl := OwnerPc.run.inj (howner.symm.trans hrest)
    exact hassign
  · exact fun _ => Or.inr (Or.inr ⟨rest, howner⟩)
  · simp [howner]

lemma of_not_run (howner : ∀ rest, s.owner ≠ .run rest) (hran : s.ran = false → s.thread = none)
    (hunjoinable : s.members.joinable = false → s.thread = none ∨ s.thread = some .ended)
    (hstopping : s.owner = .stop .joinable ∨ s.owner = .stop .join →
      s.members.running = false) : s.Owned := by
  constructor
  · exact fun hfalse => ⟨hran hfalse, howner⟩
  · exact fun rest hrest => absurd hrest (howner rest)
  · exact fun rest hrest => absurd hrest (howner rest)
  · exact fun hfalse => (hunjoinable hfalse).imp_right Or.inl
  · exact hstopping

lemma thread_eq (h : s.Owned) (howner : ∀ rest, s.owner ≠ .run rest)
    (hjoinable : s.members.joinable = false) : s.thread = none ∨ s.thread = some .ended := by
  rcases h.unjoinable hjoinable with hthread | hthread | ⟨rest, hrest⟩
  · exact Or.inl hthread
  · exact Or.inr hthread
  · exact absurd hrest (howner rest)

end Owned

lemma sound_start : start.Sound :=
  ⟨.of_not_run (by simp [start]) (fun _ => rfl) (fun _ => Or.inl rfl) (by simp [start]), .create⟩

lemma sound_callRun {s : Lifecycle} (h : s.Sound) (hran : s.ran = false) :
    { s with owner := .run run, ran := true }.Sound := by
  obtain ⟨hthread, -⟩ := h.owned.unran hran
  exact ⟨.of_run rfl rfl (by decide) (fun _ => hthread) (Or.inr (by decide)), h.logged⟩

lemma sound_callStop {s : Lifecycle} (h : s.Sound) (howner : s.owner = .idle) :
    { s with owner := .stop .store }.Sound := by
  refine ⟨.of_not_run (by simp) (fun hran => (h.owned.unran hran).1) ?_ (by simp), h.logged⟩
  exact h.owned.thread_eq (by simp [howner])

lemma sound_run {s : Lifecycle} {st : RunStatement} {rest : List RunStatement} (h : s.Sound)
    (howner : s.owner = .run (st :: rest)) (address : ℕ) :
    { s with
      members := s.members.runStep address st
      thread := st.spawn s.thread
      owner := .run rest }.Sound := by
  obtain ⟨howned, hlogged⟩ := h
  have hran : s.ran = true := by
    by_contra hran
    exact (howned.unran (by simpa using hran)).2 _ howner
  obtain ⟨hnodup, hthread⟩ := howned.constructs _ howner
  obtain ⟨hnotin, htail⟩ := List.nodup_cons.mp hnodup
  have hassign := howned.assigns _ howner
  cases st with
  | addCounter c =>
    refine ⟨.of_run rfl hran htail (fun hmem => hthread (List.mem_cons_of_mem _ hmem)) ?_,
      hlogged⟩
    simpa [Members.runStep] using hassign
  | construct =>
    have hnone := hthread (by simp)
    rw [hnone] at hlogged
    refine ⟨.of_run rfl hran htail (fun hmem => absurd hmem hnotin) ?_, hlogged.construct⟩
    simpa [Members.runStep] using hassign
  | assign =>
    exact ⟨.of_run rfl hran htail (fun hmem => hthread (List.mem_cons_of_mem _ hmem))
      (Or.inl rfl), hlogged⟩

lemma sound_runReturn {s : Lifecycle} (h : s.Sound) (howner : s.owner = .run []) :
    { s with owner := .idle }.Sound := by
  have hjoinable : s.members.joinable = true := by simpa using h.owned.assigns [] howner
  refine ⟨.of_not_run (by simp) (fun hran => (h.owned.unran hran).1) ?_ (by simp), h.logged⟩
  intro hfalse
  rw [hjoinable] at hfalse
  cases hfalse

lemma sound_stop {s t : Lifecycle} {pc : StopPc} (h : s.Sound) (howner : s.owner = .stop pc)
    (ht : s.ownerStep 0 = some t) : t.Sound := by
  obtain ⟨howned, hlogged⟩ := h
  have hran : s.ran = false → s.thread = none := fun hran => (howned.unran hran).1
  have hthread := howned.thread_eq (by simp [howner])
  rw [ownerStep, howner] at ht
  cases pc with
  | store =>
    obtain rfl := Option.some.inj ht
    exact ⟨.of_not_run (by simp) hran hthread fun _ => rfl, hlogged.store⟩
  | joinable =>
    have hrunning := howned.stopping (Or.inl howner)
    by_cases hjoinable : s.members.joinable = true
    · simp only [Members.stop, hjoinable, if_true, Option.map_some, Option.some.injEq] at ht
      subst ht
      exact ⟨.of_not_run (by simp) hran hthread fun _ => hrunning, hlogged⟩
    · -- there is no thread, or it has been joined
      simp only [Members.stop, hjoinable, Bool.false_eq_true, if_false, Option.map_some,
        Option.some.injEq] at ht
      subst ht
      rw [hrunning] at hlogged
      refine ⟨.of_not_run (by simp) hran hthread (by simp), ?_⟩
      simp only [hrunning]
      rcases hthread (by simpa using hjoinable) with hnone | hended
      · exact hlogged.stopReturn (by simp [hnone]) (by simp [hnone])
      · exact hlogged.stopReturn (by simp [hended]) (by simp [hended])
  | join =>
    have hrunning := howned.stopping (Or.inr howner)
    by_cases hended : s.thread = some .ended
    · simp only [Members.stop, hended, decide_true, if_true, Option.map_some,
        Option.some.injEq] at ht
      subst ht
      rw [hrunning] at hlogged
      rw [hended] at hran
      refine ⟨.of_not_run (by simp) hran (fun _ => Or.inr rfl) (by simp), ?_⟩
      simp only [hrunning, ← hended]
      exact hlogged.stopReturn (by simp [hended]) (by simp [hended])
    · simp [Members.stop, hended] at ht

lemma sound_thread {s t : Lifecycle} (h : s.Sound) (ht : s.threadStep = some t) : t.Sound := by
  obtain ⟨⟨hunran, hconstructs, hassigns, hunjoinable, hstopping⟩, hlogged⟩ := h
  obtain ⟨pc, hpc, hmap⟩ := Option.bind_eq_some_iff.mp ht
  obtain ⟨pc', hpc', rfl⟩ := Option.map_eq_some_iff.mp hmap
  rw [hpc] at hunran hconstructs hunjoinable hlogged
  refine ⟨⟨?_, ?_, hassigns, ?_, hstopping⟩, hlogged.next hpc'⟩
  · intro hran
    cases (hunran hran).1
  · intro rest hrest
    refine ⟨(hconstructs rest hrest).1, fun hmem => ?_⟩
    cases (hconstructs rest hrest).2 hmem
  · intro hjoinable
    rcases hunjoinable hjoinable with hthread | hthread | hrest
    · cases hthread
    · -- a thread that has ended takes no step
      cases hthread
      cases hpc'
    · exact Or.inr (Or.inr hrest)

lemma sound_of_reachable {s : Lifecycle} (h : lifecycle.Reachable s) : s.Sound := by
  refine h.invariant ?_ ?_
  · rintro s rfl
    exact sound_start
  · intro s a t hs ha
    cases a with
    | callRun =>
      simp only [lifecycle] at ha
      split at ha
      · rename_i hidle
        obtain rfl := Option.some.inj ha
        exact sound_callRun hs hidle.2
      · cases ha
    | callStop =>
      simp only [lifecycle] at ha
      split at ha
      · rename_i hidle
        obtain rfl := Option.some.inj ha
        exact sound_callStop hs hidle
      · cases ha
    | owner address =>
      have ha : s.ownerStep address = some t := ha
      match howner : s.owner with
      | .idle =>
        rw [ownerStep, howner] at ha
        cases ha
      | .run [] =>
        rw [ownerStep, howner] at ha
        obtain rfl := Option.some.inj ha
        exact sound_runReturn hs howner
      | .run (st :: rest) =>
        rw [ownerStep, howner] at ha
        obtain rfl := Option.some.inj ha
        exact sound_run hs howner address
      | .stop pc =>
        refine sound_stop hs howner ?_
        rw [ownerStep, howner] at ha ⊢
        exact ha
    | thread => exact sound_thread hs ha

end Lifecycle

/-- **The lifecycle of a manager.**  In every run of an owner that calls `Run` at most once
and `Stop` any number of times, with the thread that `Run` starts: once a `Stop` has returned,
no `_runImpl` is in progress and none begins; `_preRunImpl` is called at most once, and has
returned before the first `_runImpl` begins; no two `_runImpl` overlap. -/
theorem lifecycle_wellBehaved {s : Lifecycle} (h : lifecycle.Reachable s) :
    WellBehaved s.log :=
  (Lifecycle.sound_of_reachable h).logged.wellBehaved

/-- A `Stop` during the first `_runImpl`, and another one. -/
theorem lifecycle_wellBehaved_stopped : ∃ s, lifecycle.Reachable s ∧
    s.log = [.preRunCall, .preRunReturn, .runCall, .runReturn, .stopReturn, .stopReturn] ∧
    WellBehaved s.log := by
  have h₀ : lifecycle.Reachable .start := .of_init rfl
  obtain ⟨s, hs, hlog⟩ : ∃ s, lifecycle.exec .start
      [.callRun, .owner 1, .owner 2, .owner 3, .owner 0, .thread, .owner 0, .owner 0, .thread,
        .thread, .thread, .thread, .callStop, .owner 0, .owner 0, .thread, .thread, .owner 0,
        .callStop, .owner 0, .owner 0] = some s ∧
      s.log = [.preRunCall, .preRunReturn, .runCall, .runReturn, .stopReturn, .stopReturn] :=
    ⟨_, rfl, rfl⟩
  exact ⟨s, h₀.exec hs, hlog, lifecycle_wellBehaved (h₀.exec hs)⟩

end EventManager.IManager
