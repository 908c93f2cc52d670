import EventManager.App6.Sender

/-!
# Lost wake-ups in app6 and app7

`Produce` drains the queue and clears the flag after that.  An event that comes into the
queue in between, with a `Fire` that still finds the flag set, is left behind: the flag is
cleared, the pipe is empty, and nobody wakes the poller (`loses_wakeup`).  This is the only
way to lose a wake-up: a run loses none exactly when every reset of the flag finds the queue
empty or the `Fire` of the manager still before its load (`no_lost_wakeup_iff`).
-/

namespace EventManager.App6

open Steps Machine

variable {tx : TxQueue UPtr} {fds : ℤ × ℤ}

namespace RunPc

/-- The call of `Fire` that `_runImpl` is in. -/
def firePc : RunPc tx → Option FirePc
  | fire pc => some pc
  | _ => none

/-- The manager has put an event into the queue, and the `Fire` for it has not returned. -/
def Signalling : RunPc tx → Prop
  | makeUnique => False
  | emplace pc => tx.Emplaced pc
  | incTx => True
  | fire _ => True

/-- The manager has put an event into the queue, and the `Fire` for it has not loaded the
flag. -/
def BeforeLoad : RunPc tx → Prop
  | makeUnique => False
  | emplace pc => tx.Emplaced pc
  | incTx => True
  | fire pc => pc = .load

lemma BeforeLoad.signalling {pc : RunPc tx} (h : pc.BeforeLoad) : pc.Signalling := by
  cases pc with
  | makeUnique => exact h
  | emplace pc => exact h
  | incTx => trivial
  | fire pc => trivial

lemma firePc_of_not_signalling {pc : RunPc tx} (h : ¬ pc.Signalling) : pc.firePc = none := by
  cases pc with
  | fire pc => exact absurd trivial h
  | _ => rfl

end RunPc

namespace PollPc

/-- The call of `Consume` of the event that `Produce` is in. -/
def consumePc : PollPc tx → Option ConsumePc
  | consume pc _ => some pc
  | _ => none

/-- The poller is inside `Produce`. -/
def Producing : PollPc tx → Prop
  | swap _ _ => True
  | consume _ _ => True
  | _ => False

lemma consumePc_of_not_producing {pc : PollPc tx} (h : ¬ pc.Producing) :
    pc.consumePc = none := by
  cases pc with
  | consume pc es => exact absurd trivial h
  | _ => rfl

end PollPc

namespace Sender

/-- Nothing sits in the queue unsignalled: when the queue holds an event, the manager is not
between an `emplace_back` and the return of `Fire`, and the poller is not inside `Produce`,
then the pipe is readable. -/
def Awake (s : Sender tx) : Prop :=
  tx.Nonempty s.txQueue → ¬ s.run.Signalling → ¬ s.poll.Producing → s.txEvent.Readable

/-- The step is the `_fired.store(false)` of `Consume`. -/
def Resets (s : Sender tx) (a : Action) : Prop :=
  a = .poll ∧ ∃ events, s.poll = .consume .store events

/-- The queue is empty, or the manager will load the flag after this state. -/
def ResetSafe (s : Sender tx) : Prop := ¬ tx.Nonempty s.txQueue ∨ s.run.BeforeLoad

/-! ### The flag while `Produce` runs -/

/-- The event keeps its invariant, and the flag is set while `Produce` runs. -/
structure FlagInv (s : Sender tx) : Prop where
  signal : s.txEvent.SignalInv s.run.firePc s.poll.consumePc
  fired : s.poll.Producing → s.txEvent.fired = true

lemma flagInv_create (hfds : fds.1 ≠ 0) : (create tx fds).FlagInv :=
  ⟨.create hfds, fun h => h.elim⟩

lemma flagInv_run {s t : Sender tx} {data : ℤ} (hI : s.FlagInv)
    (h : s.runImpl data = some t) : t.FlagInv := by
  obtain ⟨hsig, hfired⟩ := hI
  rcases runImpl_cases h with ⟨hrun, rfl⟩ | ⟨pc, q, pc', hrun, -, rfl⟩ |
    ⟨pc, q, hrun, -, rfl⟩ | ⟨hrun, rfl⟩ | ⟨pc, pc', hrun, hpc, rfl⟩ | ⟨pc, hrun, hpc, rfl⟩
  all_goals rw [hrun] at hsig
  · exact ⟨hsig, hfired⟩
  · exact ⟨hsig, hfired⟩
  · exact ⟨hsig, hfired⟩
  · exact ⟨hsig.callFire, hfired⟩
  all_goals
    have hfire := hsig.fire
    rw [hpc] at hfire
    refine ⟨hfire, fun hprod => ?_⟩
    -- `Fire` never clears the flag
    have hset := hfired hprod
    cases pc with
    | load => exact hset
    | store => rfl
    | write => exact hset

lemma flagInv_poll {s t : Sender tx} (hI : s.FlagInv) (h : s.pollImpl = some t) :
    t.FlagInv := by
  obtain ⟨hsig, hfired⟩ := hI
  rcases pollImpl_cases h with ⟨hpoll, hread, rfl⟩ | ⟨pc, es, q, es', pc', hpoll, -, rfl⟩ |
    ⟨pc, es, q, es', hpoll, -, rfl⟩ | ⟨pc, es, ev, pc', hpoll, hc, rfl⟩ |
    ⟨pc, es, ev, hpoll, hc, rfl⟩ | ⟨hpoll, rfl⟩ | ⟨e, es, hpoll, rfl⟩
  all_goals rw [hpoll] at hsig hfired
  · -- a byte in the pipe is one that the flag promises
    refine ⟨hsig, fun _ => ?_⟩
    have hcount := hsig.balanced.count
    by_contra hf
    simp only [PipedEvent.promised, hf, false_and, if_false] at hcount
    simp only [PipedEvent.Readable] at hread
    omega
  · exact ⟨hsig, hfired⟩
  · exact ⟨hsig.callConsume, fun _ => hfired trivial⟩
  · refine ⟨hsig.consume hc, fun _ => ?_⟩
    rcases PipedEvent.consume_cases hc with ⟨-, -, hpc, -⟩ | ⟨-, rfl, -, -, hf⟩ |
      ⟨-, rfl, -, -⟩ | ⟨-, -, hpc⟩
    · cases hpc
    · exact hf
    · exact hfired trivial
    · cases hpc
  · exact ⟨hsig.consume hc, fun hprod => hprod.elim⟩
  · exact ⟨hsig, fun hprod => hprod.elim⟩
  · exact ⟨hsig, fun hprod => hprod.elim⟩

lemma flagInv_step {s t : Sender tx} {a : Action} (hI : s.FlagInv)
    (h : (sender tx fds).next s a = some t) : t.FlagInv := by
  cases a with
  | run data => exact flagInv_run hI h
  | poll => exact flagInv_poll hI h

/-! ### Runs whose resets are safe -/

/-- An event in the queue is about to be signalled, or has been. -/
structure WakeInv (s : Sender tx) : Prop where
  flag : s.FlagInv
  wake : tx.Nonempty s.txQueue → s.run.Signalling ∨ s.txEvent.fired = true

lemma wakeInv_create (hfds : fds.1 ≠ 0) : (create tx fds).WakeInv :=
  ⟨flagInv_create hfds, fun h => absurd h tx.not_nonempty_create⟩

lemma wakeInv_run {s t : Sender tx} {data : ℤ} (hI : s.WakeInv)
    (h : s.runImpl data = some t) : t.WakeInv := by
  obtain ⟨hflag, hwake⟩ := hI
  refine ⟨flagInv_run hflag h, fun hne => ?_⟩
  have hsig := hflag.signal
  rcases runImpl_cases h with ⟨hrun, rfl⟩ | ⟨pc, q, pc', hrun, hq, rfl⟩ |
    ⟨pc, q, hrun, -, rfl⟩ | ⟨hrun, rfl⟩ | ⟨pc, pc', hrun, hpc, rfl⟩ | ⟨pc, hrun, hpc, rfl⟩
  all_goals rw [hrun] at hwake hsig
  · exact Or.inr ((hwake hne).resolve_left id)
  · -- the event that makes the queue nonempty is the one that is being signalled
    rcases tx.nonempty_emplaceBack hq hne with hold | hnew
    · exact (hwake hold).imp_left (tx.emplaced_emplaceBack hq)
    · exact Or.inl (hnew pc' rfl)
  · exact Or.inl trivial
  · exact Or.inl trivial
  · exact Or.inl trivial
  · exact Or.inr (hsig.fired_of_fire hpc)

lemma wakeInv_poll {s t : Sender tx} (hI : s.WakeInv)
    (hsafe : (∃ es, s.poll = .consume .store es) → s.ResetSafe) (h : s.pollImpl = some t) :
    t.WakeInv := by
  obtain ⟨hflag, hwake⟩ := hI
  refine ⟨flagInv_poll hflag h, fun hne => ?_⟩
  have hfired := hflag.fired
  rcases pollImpl_cases h with ⟨hpoll, hread, rfl⟩ | ⟨pc, es, q, es', pc', hpoll, -, rfl⟩ |
    ⟨pc, es, q, es', hpoll, -, rfl⟩ | ⟨pc, es, ev, pc', hpoll, hc, rfl⟩ |
    ⟨pc, es, ev, hpoll, hc, rfl⟩ | ⟨hpoll, rfl⟩ | ⟨e, es, hpoll, rfl⟩
  all_goals rw [hpoll] at hfired
  · exact hwake hne
  · exact Or.inr (hfired trivial)
  · exact Or.inr (hfired trivial)
  · rcases PipedEvent.consume_cases hc with ⟨-, -, hpc, -⟩ | ⟨-, rfl, -, -, -⟩ |
      ⟨-, rfl, -, -⟩ | ⟨-, -, hpc⟩
    · cases hpc
    · exact Or.inr (hfired trivial)
    · exact Or.inr (hfired trivial)
    · cases hpc
  · rcases PipedEvent.consume_cases hc with ⟨-, rfl, -, -⟩ | ⟨-, -, hpc, -⟩ |
      ⟨-, -, hpc, -⟩ | ⟨rfl, rfl, -⟩
    · exact Or.inr (hfired trivial)
    · cases hpc
    · cases hpc
    · -- the reset: the event that is in the queue will be signalled
      have hload := (hsafe ⟨es, hpoll⟩).resolve_left (not_not_intro hne)
      exact Or.inl hload.signalling
  · exact hwake hne
  · exact hwake hne

lemma wakeInv_step {s t : Sender tx} {a : Action} (hI : s.WakeInv)
    (hsafe : s.Resets a → s.ResetSafe) (h : (sender tx fds).next s a = some t) :
    t.WakeInv := by
  cases a with
  | run data => exact wakeInv_run hI h
  | poll => exact wakeInv_poll hI (fun hstore => hsafe ⟨rfl, hstore⟩) h

lemma WakeInv.awake {s : Sender tx} (hI : s.WakeInv) : s.Awake := by
  intro hne hrun hpoll
  have hfired : s.txEvent.fired = true := (hI.wake hne).resolve_left hrun
  have hfire : s.run.firePc = none := RunPc.firePc_of_not_signalling hrun
  have hcons : s.poll.consumePc = none := PollPc.consumePc_of_not_producing hpoll
  exact hI.flag.signal.readable (by simp [hfire]) (by simp [hcons]) hfired

/-! ### What a reset at the wrong time does -/

/-- After a reset that finds an event in the queue, with a manager that will not look at the
flag before it has put another one there, the pipe is empty. -/
lemma not_awake_of_reset {s t : Sender tx} {a : Action} (hI : s.FlagInv)
    (hreset : s.Resets a) (hbad : ¬ s.ResetSafe)
    (h : (sender tx fds).next s a = some t) : ¬ t.Awake := by
  obtain ⟨rfl, es, hpoll⟩ := hreset
  have hsig := hI.signal
  have hfired : s.txEvent.fired = true := hI.fired (by rw [hpoll]; trivial)
  rw [hpoll] at hsig
  rw [ResetSafe, not_or, not_not] at hbad
  obtain ⟨hne, hload⟩ := hbad
  -- the byte has been read, and no `Fire` is about to write another
  have hcount := hsig.balanced.count
  simp only [PipedEvent.promised, PollPc.consumePc, ne_eq, not_true_eq_false, and_false,
    if_false, Nat.add_zero, Nat.add_eq_zero_iff] at hcount
  obtain ⟨hbytes, hwrite⟩ := hcount
  have hquiet : ¬ s.run.Signalling := by
    intro hrun
    cases hpc : s.run with
    | makeUnique =>
      rw [hpc] at hrun
      exact hrun
    | emplace pc =>
      rw [hpc] at hrun hload
      exact hload hrun
    | incTx => exact hload (by rw [hpc]; trivial)
    | fire pc =>
      cases pc with
      | load => exact hload (by rw [hpc]; rfl)
      | store =>
        have hf := hsig.storing (by rw [hpc]; rfl)
        rw [hfired] at hf
        cases hf
      | write =>
        rw [hpc] at hwrite
        cases hwrite
  have hstep : s.pollImpl = some t := h
  rcases pollImpl_cases hstep with ⟨hp, -⟩ | ⟨pc, es', q, es'', pc', hp, -⟩ |
    ⟨pc, es', q, es'', hp, -⟩ | ⟨pc, es', ev, pc', hp, hc, -⟩ |
    ⟨pc, es', ev, hp, hc, rfl⟩ | ⟨hp, -⟩ | ⟨e, es', hp, -⟩
  all_goals
    rw [hpoll] at hp
    cases hp
  · cases hc
  · cases hc
    intro hawake
    have hread := hawake hne hquiet id
    simp [PipedEvent.Readable, hbytes] at hread

end Sender

open Sender

/-- **Lost wake-ups.**  A run of app6 or of app7 loses no wake-up in any of its states
exactly when each of its resets of the flag finds the queue empty, or the manager before the
load of the `Fire` for an event that it has put there. -/
theorem no_lost_wakeup_iff {app : App} {fds : ℤ × ℤ} (hfds : fds.1 ≠ 0)
    {t : Sender app.txQueue} {tr : List (Sender app.txQueue × Action)}
    (hr : (sender app.txQueue fds).Run (.create app.txQueue fds) tr t) :
    ((∀ p ∈ tr, p.1.Awake) ∧ t.Awake) ↔ ∀ p ∈ tr, p.1.Resets p.2 → p.1.ResetSafe := by
  constructor
  · rintro ⟨htr, ht⟩ p hp hreset
    by_contra hbad
    have hflag : p.1.FlagInv := hr.invariant_mem (I := FlagInv) (C := fun _ _ => True)
      (fun _ _ _ hI _ hs => flagInv_step hI hs) (fun _ _ => trivial) (flagInv_create hfds) hp
    obtain ⟨u, hu, hvisited⟩ := hr.next_of_mem hp
    have hlost : ¬ u.Awake := not_awake_of_reset hflag hreset hbad hu
    rcases hvisited with rfl | ⟨q, hq, rfl⟩
    · exact hlost ht
    · exact hlost (htr q hq)
  · intro hsafe
    have hstep : ∀ s a u, WakeInv s → (s.Resets a → s.ResetSafe) →
        (sender app.txQueue fds).next s a = some u → WakeInv u :=
      fun s a u hI hs ha => wakeInv_step hI hs ha
    have hcreate : (create app.txQueue fds).WakeInv := wakeInv_create hfds
    constructor
    · intro p hp
      exact (hr.invariant_mem hstep hsafe hcreate hp).awake
    · exact (hr.invariant hstep hsafe hcreate).awake

/-- The manager sends an event, and the poller drains the queue while the manager is idle. -/
def sendAndDrain : List Action :=
  List.replicate 8 (Action.run 100) ++ List.replicate 7 Action.poll

/-- In the run of app7 the reset finds the queue empty: the run loses no wake-up. -/
theorem no_lost_wakeup_iff_quiet : ∃ s, (sender App.app7.txQueue (3, 4)).Reachable s ∧
    s.eventTx = 1 ∧ s.Awake := by
  have h₀ : (sender App.app7.txQueue (3, 4)).Reachable (.create _ (3, 4)) := .of_init rfl
  obtain ⟨s, hs, htx, hreset⟩ : ∃ s,
      (sender App.app7.txQueue (3, 4)).exec (.create _ (3, 4)) sendAndDrain = some s ∧
      s.eventTx = 1 ∧
      ∀ p ∈ (sender App.app7.txQueue (3, 4)).trace (.create _ (3, 4)) sendAndDrain,
        p.1.poll.consumePc = some .store → p.1.txQueue.data = [] :=
    ⟨_, rfl, rfl, by decide⟩
  refine ⟨s, h₀.exec hs, htx, ((no_lost_wakeup_iff (by decide) (run_of_exec hs)).mpr ?_).2⟩
  rintro p hp ⟨-, es, hpoll⟩
  exact Or.inl (not_not_intro (hreset p hp (by rw [hpoll]; rfl)))

/-- A lost wake-up, in app6 and in app7: the poller has drained the first event out of the
queue when the second one comes in; the `Fire` for it finds the flag set, and then the poller
reads the byte and clears the flag. -/
theorem loses_wakeup :
    (∃ s, (sender App.app6.txQueue (3, 4)).Reachable s ∧ ¬ s.Awake) ∧
    ∃ s, (sender App.app7.txQueue (3, 4)).Reachable s ∧ ¬ s.Awake := by
  constructor
  · have h₀ : (sender App.app6.txQueue (3, 4)).Reachable (.create _ (3, 4)) := .of_init rfl
    obtain ⟨s, hs, hne, hrun, hpoll, hread⟩ : ∃ s,
        (sender App.app6.txQueue (3, 4)).exec (.create _ (3, 4))
          (List.replicate 8 (Action.run 100) ++ List.replicate 6 Action.poll ++
            List.replicate 6 (Action.run 200) ++ List.replicate 3 Action.poll) = some s ∧
        App.app6.txQueue.Nonempty s.txQueue ∧ ¬ s.run.Signalling ∧ ¬ s.poll.Producing ∧
        ¬ s.txEvent.Readable :=
      ⟨_, rfl, by exact Option.some_ne_none 2, id, id, by decide⟩
    exact ⟨s, h₀.exec hs, fun hawake => hread (hawake hne hrun hpoll)⟩
  · have h₀ : (sender App.app7.txQueue (3, 4)).Reachable (.create _ (3, 4)) := .of_init rfl
    obtain ⟨s, hs, hne, hrun, hpoll, hread⟩ : ∃ s,
        (sender App.app7.txQueue (3, 4)).exec (.create _ (3, 4))
          (List.replicate 8 (Action.run 100) ++ List.replicate 4 Action.poll ++
            List.replicate 6 (Action.run 200) ++ List.replicate 3 Action.poll) = some s ∧
        App.app7.txQueue.Nonempty s.txQueue ∧ ¬ s.run.Signalling ∧ ¬ s.poll.Producing ∧
        ¬ s.txEvent.Readable :=
      ⟨_, rfl, by exact List.cons_ne_nil _ _, id, id, by decide⟩
    exact ⟨s, h₀.exec hs, fun hawake => hread (hawake hne hrun hpoll)⟩

end EventManager.App6
