import EventManager.App8.Locks

/-!
# The order of events in app8

An event goes into the queue whose lock happens to be free, and `Produce` looks at the second
queue first, so that the two queues can mix up the order (`not_preserves_order`).  As long as
`try_lock` does not fail spuriously they do not, because only one of them is ever used: the
first `Produce` finds the second queue empty and keeps its lock for ever, and before that the
first lock is always free for the manager (`preserves_order`).
-/

namespace EventManager.App8

open Steps

/-- The events that `Produce` has taken out of a queue. -/
def PollPc.events : PollPc → List UPtr
  | .unlock _ events => events
  | .consume _ events => events
  | _ => []

namespace ManagerA

/-- Before the first `Produce` has tried the second lock: nobody uses the second queue, and the
poller has not touched the first. -/
structure Fresh (s : ManagerA) : Prop where
  second : s.txMutex .two = none
  first : s.txMutex .one ≠ some .poller
  run : ∀ event, s.run ≠ .tryLock .two event
  poll : s.poll = .outside ∨ s.poll = .tryLock .two

/-- The second queue is never used, and what has been returned, what `Produce` holds and what
the first queue holds are the events that were put into a queue. -/
structure OrderInv (s : ManagerA) : Prop where
  second : s.txQueue .two = []
  poll : s.poll ≠ .swap .two ∧ ∀ events, s.poll ≠ .unlock .two events
  stage : s.txMutex .two = some .poller ∨ s.Fresh
  order : s.returned ++ s.poll.events ++ s.txQueue .one = s.enqueued

/-- The step is a `try_lock` that fails although nobody holds the mutex, on the mutex that the
thread tries first. -/
def Misses (s : ManagerA) : Action → Prop
  | .run _ granted => s.run.Tries .one ∧ s.txMutex .one = none ∧ granted = false
  | .poll granted => s.poll = .tryLock .two ∧ s.txMutex .two = none ∧ granted = false

instance (s : ManagerA) : (a : Action) → Decidable (s.Misses a)
  | .run _ _ => inferInstanceAs (Decidable (_ ∧ _ ∧ _))
  | .poll _ => inferInstanceAs (Decidable (_ ∧ _ ∧ _))

variable {s t : ManagerA} {granted : Bool}

lemma orderInv_start (fds : ℤ × ℤ) : (start fds fun _ => []).OrderInv where
  second := rfl
  poll := ⟨by simp [start], by simp [start]⟩
  stage := Or.inr ⟨rfl, by simp [start], by simp [start], Or.inl rfl⟩
  order := rfl

lemma OrderInv.not_manager (h : s.OrderInv) : s.txMutex .two ≠ some .manager := by
  rcases h.stage with hheld | hfresh
  · simp [hheld]
  · simp [hfresh.second]

/-- Past its first `try_lock` the poller has the second lock. -/
lemma OrderInv.held (h : s.OrderInv) (houtside : s.poll ≠ .outside)
    (htry : s.poll ≠ .tryLock .two) : s.txMutex .two = some .poller := by
  rcases h.stage with hheld | hfresh
  · exact hheld
  · rcases hfresh.poll with hpoll | hpoll
    · exact absurd hpoll houtside
    · exact absurd hpoll htry

lemma OrderInv.not_two (hI : s.Inv) (h : s.OrderInv) : ¬ s.run.Holds .two :=
  fun hholds => h.not_manager ((hI.manager .two).mpr hholds)

/-- A fresh poller keeps neither lock from the manager. -/
lemma Fresh.not_busy {data : ℤ} {i : Slot} {event : UPtr} (h : s.Fresh) (hI : s.Inv)
    (hmiss : ¬ s.Misses (.run data granted)) (hrun : s.run = .tryLock i event)
    (hfails : s.txMutex i = none → granted = false) : False := by
  cases i with
  | one =>
    cases hmutex : s.txMutex .one with
    | none => exact hmiss ⟨by rw [hrun]; rfl, hmutex, hfails hmutex⟩
    | some thread =>
      cases thread with
      | manager =>
        have hholds := (hI.manager .one).mp hmutex
        rw [hrun] at hholds
        exact hholds
      | poller => exact h.first hmutex
  | two => exact h.run event hrun

lemma OrderInv.stage_runs {data : ℤ} (hI : s.Inv) (h : s.OrderInv)
    (hmiss : ¬ s.Misses (.run data granted)) (hs : s.Runs granted t) :
    t.txMutex .two = some .poller ∨ t.Fresh := by
  have hnot := OrderInv.not_two hI h
  have hstage := h.stage
  cases hs with
  | call data hrun =>
    refine hstage.imp_right fun hfresh => ?_
    exact ⟨hfresh.second, hfresh.first, by simp, hfresh.poll⟩
  | lock i event hrun hfree =>
    cases i with
    | one =>
      refine hstage.imp (fun hheld => by simpa using hheld) fun hfresh => ?_
      exact ⟨by simpa using hfresh.second, by simp, by simp, hfresh.poll⟩
    | two =>
      rcases hstage with hheld | hfresh
      · exact absurd hheld hfree
      · exact absurd hrun (hfresh.run event)
  | busy i event hrun hfails =>
    exact Or.inl (hstage.resolve_right fun hfresh => hfresh.not_busy hI hmiss hrun hfails)
  | emplaceBack i event hrun =>
    refine hstage.imp_right fun hfresh => ?_
    exact ⟨hfresh.second, hfresh.first, by simp, hfresh.poll⟩
  | unlock i hrun =>
    cases i with
    | one =>
      refine hstage.imp (fun hheld => by simpa using hheld) fun hfresh => ?_
      exact ⟨by simpa using hfresh.second, by simp, by simp, hfresh.poll⟩
    | two => exact absurd (by rw [hrun]; rfl) hnot
  | finish ev tx dropped run' hrun hrun' =>
    refine hstage.imp_right fun hfresh => ?_
    refine ⟨hfresh.second, hfresh.first, fun event => ?_, hfresh.poll⟩
    rcases hrun' with rfl | ⟨pc, rfl⟩ <;> simp

lemma orderInv_runs {data : ℤ} (hI : s.Inv) (h : s.OrderInv)
    (hmiss : ¬ s.Misses (.run data granted)) (hs : s.Runs granted t) : t.OrderInv := by
  have hnot := OrderInv.not_two hI h
  have hstage := h.stage_runs hI hmiss hs
  obtain ⟨hsecond, hpoll, -, horder⟩ := h
  cases hs with
  | call data hrun => exact ⟨hsecond, hpoll, hstage, horder⟩
  | lock i event hrun hfree => exact ⟨hsecond, hpoll, hstage, horder⟩
  | busy i event hrun hfails => exact ⟨hsecond, hpoll, hstage, horder⟩
  | emplaceBack i event hrun =>
    cases i with
    | one =>
      refine ⟨by simpa using hsecond, hpoll, hstage, ?_⟩
      simp only [Function.update_self]
      rw [← horder, List.append_assoc _ _ [event]]
    | two => exact absurd (by rw [hrun]; rfl) hnot
  | unlock i hrun => exact ⟨hsecond, hpoll, hstage, horder⟩
  | finish ev tx dropped run' hrun hrun' => exact ⟨hsecond, hpoll, hstage, horder⟩

lemma OrderInv.stage_produces (h : s.OrderInv) (hmiss : ¬ s.Misses (.poll granted))
    (hs : s.Produces granted t) : t.txMutex .two = some .poller ∨ t.Fresh := by
  have hheld := h.held
  cases hs with
  | call hp =>
    refine h.stage.imp_right fun hfresh => ?_
    exact ⟨hfresh.second, hfresh.first, hfresh.run, Or.inr rfl⟩
  | lock i hp hfree =>
    rw [hp] at hheld
    left
    cases i with
    | one => simpa using hheld (by simp) (by simp)
    | two => simp
  | busy i hp hfails =>
    rw [hp] at hheld
    left
    cases i with
    | one => exact hheld (by simp) (by simp)
    | two =>
      exact h.stage.resolve_right fun hfresh =>
        hmiss ⟨hp, hfresh.second, hfails hfresh.second⟩
  | unlock i events hp =>
    rw [hp] at hheld
    left
    cases i with
    | one => simpa using hheld (by simp) (by simp)
    | two => exact absurd hp (h.poll.2 events)
  | empty i hp hq => exact Or.inl (hheld (by simp [hp]) (by simp [hp]))
  | nonempty i hp hq => exact Or.inl (hheld (by simp [hp]) (by simp [hp]))
  | swap i hp => exact Or.inl (hheld (by simp [hp]) (by simp [hp]))
  | consume pc pc' events ev hp => exact Or.inl (hheld (by simp [hp]) (by simp [hp]))
  | finish pc events ev hp => exact Or.inl (hheld (by simp [hp]) (by simp [hp]))

lemma orderInv_produces (h : s.OrderInv) (hmiss : ¬ s.Misses (.poll granted))
    (hs : s.Produces granted t) : t.OrderInv := by
  have hstage := h.stage_produces hmiss hs
  obtain ⟨hsecond, hpoll, -, horder⟩ := h
  cases hs with
  | call hp =>
    rw [hp] at horder
    exact ⟨hsecond, ⟨by simp, by simp⟩, hstage, horder⟩
  | lock i hp hfree =>
    rw [hp] at horder
    exact ⟨hsecond, ⟨by simp, by simp⟩, hstage, horder⟩
  | busy i hp hfails =>
    rw [hp] at horder
    refine ⟨hsecond, ?_, hstage, ?_⟩
    · cases i <;> simp [PollPc.otherwise]
    · cases i <;> exact horder
  | empty i hp hq =>
    rw [hp] at horder
    refine ⟨hsecond, ?_, hstage, ?_⟩
    · cases i <;> simp [PollPc.otherwise]
    · cases i <;> exact horder
  | nonempty i hp hq =>
    rw [hp] at horder
    cases i with
    | one => exact ⟨hsecond, ⟨by simp, by simp⟩, hstage, horder⟩
    -- `Produce` leaves the second queue at its test, with the lock
    | two => exact absurd hsecond hq
  | swap i hp =>
    rw [hp] at horder
    cases i with
    | one =>
      refine ⟨by simpa using hsecond, ⟨by simp, by simp⟩, hstage, ?_⟩
      simpa [PollPc.events] using horder
    | two => exact absurd hp hpoll.1
  | unlock i events hp =>
    rw [hp] at horder
    exact ⟨hsecond, ⟨by simp, by simp⟩, hstage, horder⟩
  | consume pc pc' events ev hp =>
    rw [hp] at horder
    exact ⟨hsecond, ⟨by simp, by simp⟩, hstage, horder⟩
  | finish pc events ev hp =>
    rw [hp] at horder
    refine ⟨hsecond, ⟨by simp, by simp⟩, hstage, ?_⟩
    simpa [PollPc.events] using horder

lemma orderInv_step {fds : ℤ × ℤ} {a : Action} (h : s.Inv ∧ s.OrderInv) (hmiss : ¬ s.Misses a)
    (ha : (manager fds fun _ => []).next s a = some t) : t.Inv ∧ t.OrderInv := by
  obtain ⟨hI, horder⟩ := h
  refine ⟨inv_step hI ha, ?_⟩
  cases a with
  | run data granted =>
    cases ha
    exact orderInv_runs hI horder hmiss (runs_runImpl s data granted)
  | poll granted => exact orderInv_produces horder hmiss (produces_produce ha)

lemma OrderInv.in_order (h : s.OrderInv) : s.returned <+: s.enqueued := by
  have horder := h.order
  rw [List.append_assoc] at horder
  exact ⟨_, horder⟩

end ManagerA

open ManagerA

/-- **The order of app8.**  Started with empty queues, app8 returns the events in the order in
which they were put into the queues, as long as no `try_lock` of `_runImpl` on the first mutex
and none of `Produce` on the second fails while nobody holds the mutex: in every state of such a
run, what `Produce` has returned is a prefix of what `_runImpl` has enqueued. -/
theorem preserves_order {fds : ℤ × ℤ} {s : ManagerA} {tr : List (ManagerA × Action)}
    (hr : (manager fds fun _ => []).Run (.start fds fun _ => []) tr s)
    (hmiss : ∀ p ∈ tr, ¬ p.1.Misses p.2) :
    (∀ p ∈ tr, p.1.returned <+: p.1.enqueued) ∧ s.returned <+: s.enqueued := by
  have hstart : (start fds fun _ => []).Inv ∧ (start fds fun _ => []).OrderInv :=
    ⟨inv_start fds _, orderInv_start fds⟩
  have hstep : ∀ (s : ManagerA) a t, s.Inv ∧ s.OrderInv → ¬ s.Misses a →
      (manager fds fun _ => []).next s a = some t → t.Inv ∧ t.OrderInv :=
    fun _ _ _ h hm ha => orderInv_step h hm ha
  constructor
  · intro p hp
    exact (hr.invariant_mem hstep hmiss hstart hp).2.in_order
  · exact (hr.invariant hstep hmiss hstart).2.in_order

/-- An event is enqueued and returned, and then a second one is enqueued. -/
def twoEvents : List Action :=
  List.replicate 8 (Action.run 1 true) ++ List.replicate 10 (Action.poll true) ++
    List.replicate 3 (Action.run 2 true)

/-- Two events are enqueued, and `Produce` has returned the first of them before the second
came. -/
theorem preserves_order_two : ∃ s, (manager (3, 4) fun _ => []).Reachable s ∧
    s.returned = [some (.eventA 1)] ∧ s.enqueued = [some (.eventA 1), some (.eventA 2)] ∧
    s.returned <+: s.enqueued := by
  have h₀ : (manager (3, 4) fun _ => []).Reachable (.start (3, 4) fun _ => []) := .of_init rfl
  obtain ⟨s, hs, hreturned, henqueued, hmiss⟩ : ∃ s, (manager (3, 4) fun _ => []).exec
      (.start (3, 4) fun _ => []) twoEvents = some s ∧
      s.returned = [some (.eventA 1)] ∧ s.enqueued = [some (.eventA 1), some (.eventA 2)] ∧
      ∀ p ∈ (manager (3, 4) fun _ => []).trace (.start (3, 4) fun _ => []) twoEvents,
        ¬ p.1.Misses p.2 :=
    ⟨_, rfl, rfl, rfl, by decide⟩
  exact ⟨s, h₀.exec hs, hreturned, henqueued,
    (preserves_order (Machine.run_of_exec hs) hmiss).2⟩

/-- The second event finds the first mutex free, but `try_lock` fails. -/
def missesFirst : List Action :=
  List.replicate 8 (Action.run 1 true) ++ [Action.run 2 true, .run 2 false] ++
    List.replicate 3 (Action.run 2 true) ++ List.replicate 8 (Action.poll true)

/-- `Produce` finds the second mutex free, but `try_lock` fails, and it takes the first queue.
The second event comes while it holds the first mutex; the next `Produce` finds the second one
locked, and the third event comes before it takes the first queue again. -/
def missesSecond : List Action :=
  List.replicate 8 (Action.run 1 true) ++ [Action.poll true, .poll false, .poll true] ++
    List.replicate 3 (Action.run 2 true) ++ List.replicate 8 (Action.poll true) ++
    List.replicate 10 (Action.run 3 true) ++ List.replicate 7 (Action.poll true)

/-- A `try_lock` that fails spuriously mixes up the order, be it the first one of `_runImpl` or
the first one of `Produce`. -/
theorem not_preserves_order :
    (∃ s, (manager (3, 4) fun _ => []).Reachable s ∧ s.returned = [some (.eventA 2)] ∧
      s.enqueued = [some (.eventA 1), some (.eventA 2)] ∧ ¬ s.returned <+: s.enqueued) ∧
    ∃ s, (manager (3, 4) fun _ => []).Reachable s ∧
      s.returned = [some (.eventA 1), some (.eventA 3)] ∧
      s.enqueued = [some (.eventA 1), some (.eventA 2), some (.eventA 3)] ∧
      ¬ s.returned <+: s.enqueued := by
  have h₀ : (manager (3, 4) fun _ => []).Reachable (.start (3, 4) fun _ => []) := .of_init rfl
  constructor
  · obtain ⟨s, hs, hreturned, henqueued⟩ : ∃ s, (manager (3, 4) fun _ => []).exec
        (.start (3, 4) fun _ => []) missesFirst = some s ∧ s.returned = [some (.eventA 2)] ∧
        s.enqueued = [some (.eventA 1), some (.eventA 2)] :=
      ⟨_, rfl, rfl, rfl⟩
    exact ⟨s, h₀.exec hs, hreturned, henqueued, by rw [hreturned, henqueued]; decide⟩
  · obtain ⟨s, hs, hreturned, henqueued⟩ : ∃ s, (manager (3, 4) fun _ => []).exec
        (.start (3, 4) fun _ => []) missesSecond = some s ∧
        s.returned = [some (.eventA 1), some (.eventA 3)] ∧
        s.enqueued = [some (.eventA 1), some (.eventA 2), some (.eventA 3)] :=
      ⟨_, rfl, rfl, rfl⟩
    exact ⟨s, h₀.exec hs, hreturned, henqueued, by rw [hreturned, henqueued]; decide⟩

end EventManager.App8
