import EventManager.App10.Manager

/-!
# Delivery in app10 over the AtomicQueueB2

The results about the program over the queue of elements are carried to the program over its
`AtomicQueueB2`, where the loads, the exchanges and the stores of `try_push`, `was_empty` and
`pop` interleave with the steps of `Fire` and `Consume`: no event is lost, repeated or reordered
(`app10_delivery`), and no wake-up is lost (`app10_readable`).
-/

namespace EventManager.App10

open Steps AtomicQueueB2

/-- The states of the program over its `AtomicQueueB2`. -/
abbrev AppState : Type :=
  Client.ImplState (AtomicQueueB2.Client UPtr) PipedEvent (Op UPtr) (Side × Pc UPtr) ThreadState

namespace AppState

/-- `txQueue`. -/
def txQueue (s : AppState) : AtomicQueueB2 UPtr := s.impl.queue

/-- The thread of the manager. -/
def run (s : AppState) : RunThread := s.threads .pusher

/-- The thread that polls. -/
def poll (s : AppState) : PollThread := s.threads .popper

/-- The manager has a ticket for an event, and has yet to come back from `Fire`. -/
def Announcing (s : AppState) : Prop :=
  s.run.pc.Signalling ∨ ∃ op u trying pc, s.calls .pusher = some (op, (u, .doPush trying pc))

end AppState

/-- The length of the arrays of `txQueue`. -/
def capacity : ℕ := (create UPtr MAX_QUEUE_SIZE).size.toNat

lemma capacity_le : capacity ≤ 2 ^ 30 := by decide

variable {fds : ℤ × ℤ} {s : AppState}

/-! ### The threads as the queue of elements sees them -/

variable (fds) in
/-- The manager goes on as soon as it has a ticket. -/
lemma run_ahead {n len : ℕ} {q : AtomicQueueB2 UPtr} {p : AtomicQueueB2.Call UPtr}
    {pending : List UPtr} {last : List (AtomicQueueB2.State × UPtr)} {l : RunThread}
    (h : Pushing n len q p pending last)
    (hwant : ∀ op k d, p = some (op, k, d) → l.want = some op) :
    ((client fds).ahead (t := .pusher) l (p.bind fun p => p.2.2) : RunThread).pushed =
      l.pushed ++ pending ∧
    (((client fds).ahead (t := .pusher) l (p.bind fun p => p.2.2) : RunThread).Counted →
      l.Counted) ∧
    (pending = [] → (client fds).ahead (t := .pusher) l (p.bind fun p => p.2.2) = l) := by
  have hpushing : ∀ trying x, l.want = some (pushOp trying x) →
      (l.resume (pushResult trying)).pushed = l.pushed ++ [x] ∧
        ((l.resume (pushResult trying)).Counted → l.Counted) := by
    intro trying x hl
    simp only [RunThread.want] at hl
    split at hl
    · rename_i event hpc
      cases trying with
      | false => cases hl
      | true =>
        cases hl
        simp [RunThread.resume, RunThread.Counted, hpc, pushResult]
    · cases hl
  cases h with
  | claim trying x hlen =>
    obtain ⟨hpushed, hcounted⟩ := hpushing trying x (hwant _ _ _ rfl)
    exact ⟨hpushed, hcounted, by simp⟩
  | spin trying x hlen =>
    obtain ⟨hpushed, hcounted⟩ := hpushing trying x (hwant _ _ _ rfl)
    exact ⟨hpushed, hcounted, by simp⟩
  | write trying x z =>
    obtain ⟨hpushed, hcounted⟩ := hpushing trying x (hwant _ _ _ rfl)
    exact ⟨hpushed, hcounted, by simp⟩
  | publish trying x =>
    obtain ⟨hpushed, hcounted⟩ := hpushing trying x (hwant _ _ _ rfl)
    exact ⟨hpushed, hcounted, by simp⟩
  | tail what tail =>
    have hl := hwant _ _ _ rfl
    simp only [RunThread.want] at hl
    split at hl <;> cases hl
  | _ => exact ⟨(List.append_nil _).symm, id, fun _ => rfl⟩

variable (fds) in
/-- The poller goes on as soon as it has a ticket, or has seen both of them. -/
lemma poll_ahead {xs : List UPtr} {q : AtomicQueueB2 UPtr} {c : AtomicQueueB2.Call UPtr}
    {taken claimed : List UPtr} {front : List (AtomicQueueB2.State × UPtr)} {l : PollThread}
    (h : Popping xs q c taken claimed front)
    (hwant : ∀ op k d, c = some (op, k, d) → l.want = some op) :
    ((client fds).ahead (t := .popper) l (c.bind fun p => p.2.2) : PollThread).received =
      l.received ∧
    ((client fds).ahead (t := .popper) l (c.bind fun p => p.2.2) : PollThread).eventRx =
      l.eventRx ∧
    ((client fds).ahead (t := .popper) l (c.bind fun p => p.2.2) : PollThread).pc.held =
      l.pc.held ++ taken := by
  have hpopping : ∀ trying y, l.want = some (popOp trying) →
      (l.resume (popResult trying y)).received = l.received ∧
        (l.resume (popResult trying y)).eventRx = l.eventRx ∧
        (l.resume (popResult trying y)).pc.held = l.pc.held ++ [y] := by
    intro trying y hl
    simp only [PollThread.want] at hl
    split at hl
    · cases trying <;> cases hl
    · rename_i events hpc
      cases trying with
      | true => cases hl
      | false => simp [PollThread.resume, hpc, popResult, PollPc.held]
    · cases hl
  cases h with
  | claim trying y => exact hpopping trying y (hwant _ _ _ rfl)
  | spin trying y => exact hpopping trying y (hwant _ _ _ rfl)
  | read trying y => exact hpopping trying y (hwant _ _ _ rfl)
  | release trying y => exact hpopping trying y (hwant _ _ _ rfl)
  | head what head hne =>
    have hl := hwant _ _ _ rfl
    simp only [PollThread.want] at hl
    split at hl
    · rename_i events hpc
      cases hl
      show (l.resume (answer q.size (head - q.tail) .wasEmpty)).received = _ ∧
        (l.resume (answer q.size (head - q.tail) .wasEmpty)).eventRx = _ ∧
        (l.resume (answer q.size (head - q.tail) .wasEmpty)).pc.held = _
      simp only [answer]
      cases decide (wasSize (head - q.tail) = 0) <;>
        simp [PollThread.resume, hpc, PollPc.held]
    · cases hl
    · cases hl
  | _ => exact ⟨rfl, rfl, (List.append_nil _).symm⟩

/-! ### The results -/

lemma exists_view (h : (app10 fds).Reachable s) :
    ∃ a ph taken claimed rest pending front last, (withFifo fds capacity).Reachable a ∧
      Client.View (client fds) (fun c (ph : Impl.Phases Side (Op UPtr) (Res UPtr) (Side × Pc UPtr))
        xs => Inv capacity c (ph .pusher) (ph .popper) xs) ph s a ∧
      Pushing capacity a.value.length s.txQueue (ph .pusher) pending last ∧
      Popping a.value s.txQueue (ph .popper) taken claimed front ∧
      RingInv capacity s.txQueue taken claimed rest pending front last a.value := by
  obtain ⟨a, ha, ph, hv⟩ := (Client.simulation (C := client fds) (refines capacity_le)).reachable h
  obtain ⟨-, taken, claimed, rest, pending, front, last, hpush, hpop, hring⟩ := hv.rel
  exact ⟨a, ph, taken, claimed, rest, pending, front, last, ha, hv, hpush, hpop, hring⟩

lemma idle_of_wait {Rel : AtomicQueueB2.Client UPtr →
      Impl.Phases Side (Op UPtr) (Res UPtr) (Side × Pc UPtr) → List UPtr → Prop}
    {ph : Impl.Phases Side (Op UPtr) (Res UPtr) (Side × Pc UPtr)}
    {a : Client.State (List UPtr) PipedEvent ThreadState}
    (hv : Client.View (client fds) Rel ph s a) (hwait : s.poll.pc = .wait) :
    ph .popper = none := by
  cases hph : ph .popper with
  | none => rfl
  | some p =>
    have hwant : s.poll.want = some p.1 := hv.want _ _ _ _ hph
    rw [PollThread.want, hwait] at hwant
    cases hwant

/-- **Delivery in app10.**  Whatever the order in which the loads, the exchanges and the stores
of the queue interleave with everything else, the events that the manager has consumed are a
prefix of those for which `try_push` has returned `true`; they are all of them when the poller
waits and the two tickets are equal; and the counters have counted them. -/
theorem app10_delivery (h : (app10 fds).Reachable s) :
    s.poll.received <+: s.run.pushed ∧
    (s.poll.pc = .wait → s.txQueue.head = s.txQueue.tail → s.poll.received = s.run.pushed) ∧
    s.poll.received.length = s.poll.eventRx ∧ s.run.Counted := by
  obtain ⟨a, ph, taken, claimed, rest, pending, front, last, ha, hv, hpush, hpop, hring⟩ :=
    exists_view h
  obtain ⟨hpushed, htx, hrx⟩ := accounted_of_reachable ha
  obtain ⟨hrun, hcounted, -⟩ := run_ahead fds (l := s.run) hpush (hv.want .pusher)
  obtain ⟨hreceived, hcount, hheld⟩ := poll_ahead fds (l := s.poll) hpop (hv.want .popper)
  have hrunAhead : run a = (client fds).ahead (t := .pusher) s.run _ := hv.threads .pusher
  have hpollAhead : poll a = (client fds).ahead (t := .popper) s.poll _ := hv.threads .popper
  rw [hrunAhead, hpollAhead, hrun, hreceived, hheld] at hpushed
  rw [hrunAhead] at htx
  rw [hpollAhead, hreceived, hcount] at hrx
  have hparts : s.run.pushed = s.poll.received ++ (s.poll.pc.held ++ (claimed ++ rest)) := by
    refine (List.append_left_inj pending).mp ?_
    rw [hpushed, List.append_assoc s.poll.pc.held, hring.parts]
    simp
  refine ⟨⟨_, hparts.symm⟩, fun hwait htickets => ?_, hrx, hcounted htx⟩
  rw [idle_of_wait hv hwait] at hpop
  cases hpop
  have hnil : a.value = [] := hring.value_eq_nil_iff.mp htickets
  obtain ⟨hrest, -⟩ : rest = [] ∧ pending = [] := by
    have hparts := hring.parts
    rw [hnil] at hparts
    simpa using hparts.symm
  rw [hparts, hwait, hrest]
  simp [PollPc.held]

/-- **No lost wake-up in app10.**  When the poller waits, the two tickets differ, and the manager
is not between a ticket for an event and the return of `Fire`, then the pipe is readable. -/
theorem app10_readable (hfds : fds.1 ≠ 0) (h : (app10 fds).Reachable s)
    (hwait : s.poll.pc = .wait) (htickets : s.txQueue.head ≠ s.txQueue.tail)
    (hannouncing : ¬ s.Announcing) : s.shared.Readable := by
  obtain ⟨a, ph, taken, claimed, rest, pending, front, last, ha, hv, hpush, hpop, hring⟩ :=
    exists_view h
  obtain ⟨hsignal, hwake, -⟩ := wakeInv_of_reachable hfds ha
  obtain ⟨-, -, hrun⟩ := run_ahead fds (l := s.run) hpush (hv.want .pusher)
  have hidle : ph .popper = none := idle_of_wait hv hwait
  have hpending : pending = [] := by
    by_contra hne
    obtain ⟨op, u, trying, pc, d, hph⟩ := hpush.exists_doPush hne
    refine hannouncing (Or.inr ⟨op, u, trying, pc, ?_⟩)
    rw [hv.calls .pusher, hph]
    rfl
  have hrunEq : run a = s.run := (hv.threads .pusher).trans (hrun hpending)
  have hpollEq : poll a = s.poll := by
    refine (hv.threads .popper).trans ?_
    rw [hidle]
    rfl
  rw [hrunEq, hpollEq, hwait] at hsignal hwake
  have hnot : ¬ s.run.pc.Signalling := fun hs => hannouncing (Or.inl hs)
  have hfired := hwake (fun hnil => htickets (hring.value_eq_nil_iff.mpr hnil)) hnot id
  rw [← hv.shared]
  refine hsignal.readable ?_ (by simp [PollPc.consumePc]) hfired
  cases hpc : s.run.pc with
  | fire pc =>
    rw [hpc] at hnot
    exact absurd trivial hnot
  | _ => simp [RunPc.firePc]

/-- The manager pushes an event, and calls `Fire`. -/
def firstEvent : List (Client.ImplAction Side ℤ Bool) :=
  [.act .pusher 7, .call .pusher, .step .pusher false, .step .pusher false, .step .pusher false,
    .step .pusher false, .step .pusher false, .step .pusher false, .act .pusher 0,
    .act .pusher 0, .act .pusher 0, .act .pusher 0]

/-- The poller calls `Produce`, and passes the event on. -/
def firstPoll : List (Client.ImplAction Side ℤ Bool) :=
  [.act .popper 0, .act .popper 0, .act .popper 0, .act .popper 0,
    .call .popper, .step .popper true, .step .popper true,
    .call .popper, .step .popper false, .step .popper false, .step .popper false,
    .step .popper false,
    .call .popper, .step .popper false, .step .popper true,
    .act .popper 0, .act .popper 0]

/-- Before the threads start. -/
def app10Start (fds : ℤ × ℤ) : AppState :=
  ⟨(twoThreads (create UPtr MAX_QUEUE_SIZE)).init, fun _ => none, (client fds).init,
    (client fds).threads⟩

/-- The first event has been consumed. -/
theorem app10_delivery_first : ∃ s : AppState, (app10 (3, 4)).Reachable s ∧
    s.poll.received = [some (.eventA 7)] ∧ s.poll.received = s.run.pushed := by
  have hrun : ((app10 (3, 4)).exec (app10Start (3, 4)) (firstEvent ++ firstPoll)).map
      (fun s : AppState => (s.poll.pc, s.txQueue.head, s.txQueue.tail, s.poll.received)) =
      some (.wait, 1, 1, [some (.eventA 7)]) := by decide +kernel
  obtain ⟨s, hs, heq⟩ := Option.map_eq_some_iff.mp hrun
  obtain ⟨hwait, hhead, htail, hreceived⟩ : (PollThread.pc (AppState.poll s)) = .wait ∧
      (AppState.txQueue s).head = 1 ∧ (AppState.txQueue s).tail = 1 ∧
      (AppState.poll s).received = [some (.eventA 7)] := by simpa using heq
  have hreach := Machine.Reachable.exec (.of_init rfl) hs
  exact ⟨s, hreach, hreceived, (app10_delivery hreach).2.1 hwait (hhead.trans htail.symm)⟩

/-- The first event has made the pipe readable. -/
theorem app10_readable_first : ∃ s : AppState, (app10 (3, 4)).Reachable s ∧
    s.txQueue.head ≠ s.txQueue.tail ∧ s.shared.Readable := by
  have hrun : ((app10 (3, 4)).exec (app10Start (3, 4)) firstEvent).map
      (fun s : AppState => (s.poll.pc, s.txQueue.head, s.txQueue.tail, s.run.pc,
        (s.calls .pusher).isNone)) = some (.wait, 1, 0, .makeUnique, true) := by decide +kernel
  obtain ⟨s, hs, heq⟩ := Option.map_eq_some_iff.mp hrun
  obtain ⟨hwait, hhead, htail, hpc, hidle⟩ : PollThread.pc (AppState.poll s) = .wait ∧
      (AppState.txQueue s).head = 1 ∧ (AppState.txQueue s).tail = 0 ∧
      RunThread.pc (AppState.run s) = .makeUnique ∧ s.calls .pusher = none := by simpa using heq
  have hreach := Machine.Reachable.exec (.of_init rfl) hs
  have hne : (AppState.txQueue s).head ≠ (AppState.txQueue s).tail := by
    rw [hhead, htail]
    decide
  refine ⟨s, hreach, hne, app10_readable (by decide) hreach hwait hne ?_⟩
  rintro (hsignalling | ⟨op, u, trying, pc, hcall⟩)
  · rw [hpc] at hsignalling
    exact hsignalling
  · rw [hidle] at hcall
    cases hcall

end EventManager.App10
