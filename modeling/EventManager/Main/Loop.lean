import EventManager.EventPoller.Basic
import EventManager.Lib.Machine
import EventManager.Main.Managers

/-!
# The routing loop of main

`main` registers `ManagerA` and `ManagerB` with `ManagerC` as their consumer, and the
descriptor of `ManagerC` without one.  Its loop asks epoll for ready descriptors and goes
through them: the events of `ManagerC` it hands to `ManagerA` or `ManagerB` itself, by their
type; for every other descriptor it calls `EventPoller::Execute`.

`program` is the machine of the thread of `ManagerA` and of `main`.  The thread of
`ManagerC` only waits on an empty poller, `ManagerB` is never run, and the shared pointers
are held until the loop ends.
-/

namespace EventManager.Main

open Steps

/-- The step that `main` takes next, with the ready descriptors that it has still to look
at. -/
inductive MainPc
  /-- `poller.Wait`. -/
  | wait
  /-- At the head of the loop over the ready descriptors. -/
  | entries (rest : List ℤ)
  /-- In `Produce` of `producer`, called from `Execute` with a consumer, or by `main`. -/
  | produce (producer : Name) (consumer : Option Name) (pc : ProducePc) (rest : List ℤ)
  /-- At the head of the loop of `Execute` over the produced events. -/
  | execute (consumer : Name) (events : List Event) (rest : List ℤ)
  /-- In `Consume` of `ManagerC` for `event`, called from `Execute`. -/
  | receive (pc : ReceivePc) (event : Event) (events : List Event) (rest : List ℤ)
  /-- At the head of the loop of `main` over the events of `ManagerC`. -/
  | dispatch (events : List Event) (rest : List ℤ)
  /-- Before the increment of `events_produced_total`. -/
  | incProduced (events : List Event) (rest : List ℤ)
deriving DecidableEq, Repr

/-- The state of the program. -/
structure System where
  /-- The managers. -/
  managers : Name → Manager
  /-- Where the thread of `ManagerA` is in `_runImpl`. -/
  run : RunPc
  /-- Where `main` is. -/
  main : MainPc
  /-- The counter `events_produced_total`. -/
  produced : ℕ
  /-- The events that `ManagerA` has put into its queue, in order. -/
  enqueued : List Event
  /-- The events that a manager has consumed, in order. -/
  consumed : Name → List Event

/-- A step of the thread of `ManagerA`, with `data` for the random number, or of `main`, with
the descriptors `ready` for the result of `epoll_wait`. -/
inductive Action
  | run (data : ℤ)
  | main (ready : List ℤ)
deriving DecidableEq, Repr

/-- The size of the array `events` of `main`. -/
def maxEvents : ℕ := 10

/-- The manager to which `main` hands an event of `ManagerC`. -/
def dispatchTo : EventType → Name
  | .eventTypeA => .managerA
  | .eventTypeB => .managerB

/-- The poller of `main`; nothing fails. -/
def poller (fds : Name → ℤ × ℤ) : EventPoller Name Name :=
  ((((EventPoller.create.addPair true (fds .managerA).1 .managerA .managerC).1).addPair true
    (fds .managerB).1 .managerB .managerC).1.add true (fds .managerC).1).1

namespace System

/-- The state in which the loop begins. -/
def start (fds : Name → ℤ × ℤ) : System :=
  ⟨fun m => .create (fds m), .checkSize, .wait, 0, [], fun _ => []⟩

/-- One step of the thread of `ManagerA`. -/
def runImpl (maxQueueSize : ℕ) (s : System) (data : ℤ) : Option System :=
  ((s.managers .managerA).runImpl maxQueueSize (.eventA data) s.run).map fun p => { s with
    managers := Function.update s.managers .managerA p.1
    run := p.2
    enqueued := s.enqueued ++ emplaced (.eventA data) s.run }

/-- `Consume` of `ManagerA` or `ManagerB`. -/
def consume (s : System) (m : Name) (event : Event) : System := { s with
  managers := Function.update s.managers m (s.managers m).consume
  consumed := Function.update s.consumed m (s.consumed m ++ [event]) }

/-- One step of the loop of `main`. -/
def loop (fds : Name → ℤ × ℤ) (s : System) (ready : List ℤ) : Option System :=
  match s.main with
  | .wait => if ready.length ≤ maxEvents then some { s with main := .entries ready } else none
  | .entries [] => some { s with main := .wait }
  | .entries (fd :: rest) =>
    if fd = (s.managers .managerC).txEvent.getSource then
      some { s with main := .produce .managerC none .lock rest }
    else
      match (poller fds).watchers fd with
      | none => some { s with main := .entries rest }
      | some (p, c) => some { s with main := .produce p (some c) .lock rest }
  | .produce p c pc rest =>
    ((s.managers p).produce pc).map fun r => { s with
      managers := Function.update s.managers p r.1
      main := match r.2, c with
        | .inl pc', _ => .produce p c pc' rest
        | .inr events, some c => .execute c events rest
        | .inr events, none => .dispatch events rest }
  | .execute _ [] rest => some { s with main := .entries rest }
  | .execute .managerC (e :: es) rest => some { s with main := .receive .lock e es rest }
  | .execute c (e :: es) rest => some { consume s c e with main := .execute c es rest }
  | .receive pc e es rest =>
    ((s.managers .managerC).receive e pc).map fun r => { s with
      managers := Function.update s.managers .managerC r.1
      consumed := Function.update s.consumed .managerC
        (s.consumed .managerC ++ received e pc)
      main := match r.2 with
        | some pc' => .receive pc' e es rest
        | none => .execute .managerC es rest }
  | .dispatch [] rest => some { s with main := .entries rest }
  | .dispatch (e :: es) rest =>
    some { consume s (dispatchTo e.type) e with main := .incProduced es rest }
  | .incProduced es rest =>
    some { s with produced := s.produced + 1, main := .dispatch es rest }

end System

/-- The thread of `ManagerA` and `main`. -/
def program (maxQueueSize : ℕ) (fds : Name → ℤ × ℤ) : Machine System Action where
  init s := s = .start fds
  next s
    | .run data => s.runImpl maxQueueSize data
    | .main ready => s.loop fds ready

/-- What `pipe` promises about the descriptors that are open together: they are different,
and none is `0`, which is taken when `main` starts. -/
structure Opened (fds : Name → ℤ × ℤ) : Prop where
  pos : ∀ m, 0 < (fds m).1
  injective : Function.Injective fun m => (fds m).1

variable {fds : Name → ℤ × ℤ}

/-! ### The poller of main -/

lemma poller_eq (hfds : Opened fds) :
    poller fds = ⟨{(fds .managerC).1, (fds .managerB).1, (fds .managerA).1},
      Function.update (Function.update (fun _ => none) (fds .managerA).1
        (some (.managerA, .managerC))) (fds .managerB).1 (some (.managerB, .managerC))⟩ := by
  have hpos : ∀ m, (fds m).1 ≠ -1 := by
    intro m hm
    have hlt := hfds.pos m
    omega
  have hne : ∀ m n, m ≠ n → (fds m).1 ≠ (fds n).1 := fun m n hmn h => hmn (hfds.injective h)
  have hBA := hne .managerB .managerA (by decide)
  have hCA := hne .managerC .managerA (by decide)
  have hCB := hne .managerC .managerB (by decide)
  rw [poller, EventPoller.addPair_of_not_mem (hpos .managerA) (by simp [EventPoller.create]),
    EventPoller.addPair_of_not_mem (hpos .managerB) (by simp [EventPoller.create, hBA]),
    EventPoller.add_of_not_mem (hpos .managerC) (by simp [EventPoller.create, hCA, hCB])]
  rfl

lemma mem_interest (hfds : Opened fds) (m : Name) : (fds m).1 ∈ (poller fds).interest := by
  rw [poller_eq hfds]
  cases m <;> simp

/-- The descriptors that `Execute` finds are those of `ManagerA` and `ManagerB`, whose
consumer is `ManagerC`. -/
lemma watchers_eq_some (hfds : Opened fds) {fd : ℤ} {p c : Name}
    (h : (poller fds).watchers fd = some (p, c)) :
    fd = (fds p).1 ∧ (p = .managerA ∨ p = .managerB) ∧ c = .managerC := by
  rw [poller_eq hfds] at h
  simp only at h
  by_cases hB : fd = (fds .managerB).1
  · subst hB
    rw [Function.update_self] at h
    cases h
    exact ⟨rfl, Or.inr rfl, rfl⟩
  · rw [Function.update_of_ne hB] at h
    by_cases hA : fd = (fds .managerA).1
    · subst hA
      rw [Function.update_self] at h
      cases h
      exact ⟨rfl, Or.inl rfl, rfl⟩
    · rw [Function.update_of_ne hA] at h
      cases h

/-! ### The steps of main -/

namespace System

/-- The steps of `main`, by the line of its loop, of `Execute` or of the manager that they
take. -/
inductive Loops (fds : Name → ℤ × ℤ) (s : System) : System → Prop
  | wait (ready : List ℤ) (h : s.main = .wait) : Loops fds s { s with main := .entries ready }
  | leave (h : s.main = .entries []) : Loops fds s { s with main := .wait }
  | own (fd : ℤ) (rest : List ℤ) (h : s.main = .entries (fd :: rest))
      (hfd : fd = (s.managers .managerC).txEvent.fds.1) :
      Loops fds s { s with main := .produce .managerC none .lock rest }
  | unknown (fd : ℤ) (rest : List ℤ) (h : s.main = .entries (fd :: rest))
      (hfd : fd ≠ (s.managers .managerC).txEvent.fds.1) :
      Loops fds s { s with main := .entries rest }
  | execute (fd : ℤ) (rest : List ℤ) (p c : Name) (h : s.main = .entries (fd :: rest))
      (hfd : fd ≠ (s.managers .managerC).txEvent.fds.1)
      (hp : (poller fds).watchers fd = some (p, c)) :
      Loops fds s { s with main := .produce p (some c) .lock rest }
  | produce (p : Name) (c : Option Name) (pc pc' : ProducePc) (rest : List ℤ) (m' : Manager)
      (h : s.main = .produce p c pc rest)
      (hm : (s.managers p).produce pc = some (m', .inl pc')) :
      Loops fds s { s with
        managers := Function.update s.managers p m'
        main := .produce p c pc' rest }
  | produced (p c : Name) (pc : ProducePc) (es : List Event) (rest : List ℤ) (m' : Manager)
      (h : s.main = .produce p (some c) pc rest)
      (hm : (s.managers p).produce pc = some (m', .inr es)) :
      Loops fds s { s with
        managers := Function.update s.managers p m'
        main := .execute c es rest }
  | producedOwn (p : Name) (pc : ProducePc) (es : List Event) (rest : List ℤ) (m' : Manager)
      (h : s.main = .produce p none pc rest)
      (hm : (s.managers p).produce pc = some (m', .inr es)) :
      Loops fds s { s with
        managers := Function.update s.managers p m'
        main := .dispatch es rest }
  | executed (c : Name) (rest : List ℤ) (h : s.main = .execute c [] rest) :
      Loops fds s { s with main := .entries rest }
  | callReceive (e : Event) (es : List Event) (rest : List ℤ)
      (h : s.main = .execute .managerC (e :: es) rest) :
      Loops fds s { s with main := .receive .lock e es rest }
  | consume (c : Name) (e : Event) (es : List Event) (rest : List ℤ)
      (h : s.main = .execute c (e :: es) rest) (hc : c ≠ .managerC) :
      Loops fds s { s.consume c e with main := .execute c es rest }
  | receive (pc pc' : ReceivePc) (e : Event) (es : List Event) (rest : List ℤ) (m' : Manager)
      (h : s.main = .receive pc e es rest)
      (hm : (s.managers .managerC).receive e pc = some (m', some pc')) :
      Loops fds s { s with
        managers := Function.update s.managers .managerC m'
        consumed := Function.update s.consumed .managerC
          (s.consumed .managerC ++ received e pc)
        main := .receive pc' e es rest }
  | receivedEvent (pc : ReceivePc) (e : Event) (es : List Event) (rest : List ℤ)
      (m' : Manager) (h : s.main = .receive pc e es rest)
      (hm : (s.managers .managerC).receive e pc = some (m', none)) :
      Loops fds s { s with
        managers := Function.update s.managers .managerC m'
        consumed := Function.update s.consumed .managerC
          (s.consumed .managerC ++ received e pc)
        main := .execute .managerC es rest }
  | dispatched (rest : List ℤ) (h : s.main = .dispatch [] rest) :
      Loops fds s { s with main := .entries rest }
  | dispatch (e : Event) (es : List Event) (rest : List ℤ)
      (h : s.main = .dispatch (e :: es) rest) :
      Loops fds s { s.consume (dispatchTo e.type) e with main := .incProduced es rest }
  | incProduced (es : List Event) (rest : List ℤ) (h : s.main = .incProduced es rest) :
      Loops fds s { s with produced := s.produced + 1, main := .dispatch es rest }

lemma loops_of_loop {s t : System} {ready : List ℤ} (h : s.loop fds ready = some t) :
    s.Loops fds t := by
  unfold loop at h
  match hm : s.main with
  | .wait =>
    simp only [hm] at h
    split at h
    · obtain rfl := Option.some.inj h
      exact .wait ready hm
    · cases h
  | .entries [] =>
    simp only [hm] at h
    obtain rfl := Option.some.inj h
    exact .leave hm
  | .entries (fd :: rest) =>
    simp only [hm] at h
    split at h
    · rename_i hfd
      obtain rfl := Option.some.inj h
      exact .own fd rest hm hfd
    · rename_i hfd
      split at h
      · obtain rfl := Option.some.inj h
        exact .unknown fd rest hm hfd
      · rename_i p c hp
        obtain rfl := Option.some.inj h
        exact .execute fd rest p c hm hfd hp
  | .produce p c pc rest =>
    simp only [hm] at h
    obtain ⟨⟨m', r⟩, hr, rfl⟩ := Option.map_eq_some_iff.mp h
    cases r with
    | inl pc' => exact .produce p c pc pc' rest m' hm hr
    | inr es =>
      cases c with
      | none => exact .producedOwn p pc es rest m' hm hr
      | some c => exact .produced p c pc es rest m' hm hr
  | .execute c [] rest =>
    simp only [hm] at h
    obtain rfl := Option.some.inj h
    exact .executed c rest hm
  | .execute .managerC (e :: es) rest =>
    simp only [hm] at h
    obtain rfl := Option.some.inj h
    exact .callReceive e es rest hm
  | .execute .managerA (e :: es) rest =>
    simp only [hm] at h
    obtain rfl := Option.some.inj h
    exact .consume .managerA e es rest hm (by decide)
  | .execute .managerB (e :: es) rest =>
    simp only [hm] at h
    obtain rfl := Option.some.inj h
    exact .consume .managerB e es rest hm (by decide)
  | .receive pc e es rest =>
    simp only [hm] at h
    obtain ⟨⟨m', pc'⟩, hr, rfl⟩ := Option.map_eq_some_iff.mp h
    cases pc' with
    | some pc' => exact .receive pc pc' e es rest m' hm hr
    | none => exact .receivedEvent pc e es rest m' hm hr
  | .dispatch [] rest =>
    simp only [hm] at h
    obtain rfl := Option.some.inj h
    exact .dispatched rest hm
  | .dispatch (e :: es) rest =>
    simp only [hm] at h
    obtain rfl := Option.some.inj h
    exact .dispatch e es rest hm
  | .incProduced es rest =>
    simp only [hm] at h
    obtain rfl := Option.some.inj h
    exact .incProduced es rest hm

lemma runImpl_eq_some {maxQueueSize : ℕ} {s t : System} {data : ℤ}
    (h : s.runImpl maxQueueSize data = some t) : ∃ m' pc',
      (s.managers .managerA).runImpl maxQueueSize (.eventA data) s.run = some (m', pc') ∧
      t = { s with
        managers := Function.update s.managers .managerA m'
        run := pc'
        enqueued := s.enqueued ++ emplaced (.eventA data) s.run } := by
  obtain ⟨⟨m', pc'⟩, hm, rfl⟩ := Option.map_eq_some_iff.mp h
  exact ⟨m', pc', hm, rfl⟩

lemma update_eq {β : Type} (f : Manager → β) {managers : Name → Manager} {m' : Manager}
    {p : Name} (h : f m' = f (managers p)) (q : Name) :
    f (Function.update managers p m' q) = f (managers q) := by
  by_cases hq : q = p
  · subst hq
    rw [Function.update_self, h]
  · rw [Function.update_of_ne hq]

lemma consume_eq {β : Type} (f : Manager → β) (h : ∀ m, f m.consume = f m) (s : System)
    (p : Name) (e : Event) (q : Name) : f ((s.consume p e).managers q) = f (s.managers q) :=
  update_eq f (h _) q

/-! ### Where main can be -/

end System

/-- `main` calls `Produce` of `ManagerC` itself, and that of the others through `Execute`
with `ManagerC` as the consumer; `ManagerB` has nothing to produce. -/
def MainPc.Shaped : MainPc → Prop
  | .produce p c pc _ => (p = .managerC ∧ c = none) ∨ (p = .managerA ∧ c = some .managerC) ∨
      (p = .managerB ∧ c = some .managerC ∧ pc.events = [])
  | .execute c _ _ => c = .managerC
  | _ => True

namespace System

/-- The descriptors stay, `main` is where it can be, and the queue of `ManagerB` stays
empty. -/
structure Routed (fds : Name → ℤ × ℤ) (s : System) : Prop where
  source : ∀ m, (s.managers m).txEvent.fds = fds m
  shaped : s.main.Shaped
  idle : (s.managers .managerB).txQueue = []

lemma routed_start : (start fds).Routed fds := ⟨fun _ => rfl, trivial, rfl⟩

lemma routed_run {maxQueueSize : ℕ} {s t : System} {data : ℤ} (hR : s.Routed fds)
    (h : s.runImpl maxQueueSize data = some t) : t.Routed fds := by
  obtain ⟨m', pc', hm, rfl⟩ := runImpl_eq_some h
  refine ⟨fun m => ?_, hR.shaped, ?_⟩
  · rw [← hR.source m]
    exact update_eq (fun m => m.txEvent.fds) (Manager.runImpl_fds hm) m
  · exact hR.idle

/-- A step of `Produce` keeps the descriptors and leaves the queue of `ManagerB` empty; from
`ManagerB` it collects nothing. -/
lemma routed_produce {s : System} {p : Name} {c : Option Name} {pc : ProducePc}
    {rest : List ℤ} {m' : Manager} {r : ProducePc ⊕ List Event} (hR : s.Routed fds)
    (hm : s.main = .produce p c pc rest) (hstep : (s.managers p).produce pc = some (m', r)) :
    (∀ m, (Function.update s.managers p m' m).txEvent.fds = fds m) ∧
    (Function.update s.managers p m' .managerB).txQueue = [] ∧
    (p = .managerB → r.elim ProducePc.events id = []) := by
  obtain ⟨hsource, hshaped, hidle⟩ := hR
  have hq := Manager.produce_txQueue hstep
  rw [hm] at hshaped
  refine ⟨fun m => ?_, ?_⟩
  · rw [← hsource m]
    exact update_eq (fun m => m.txEvent.fds) (Manager.produce_fds hstep) m
  · rcases hshaped with ⟨rfl, -⟩ | ⟨rfl, -⟩ | ⟨rfl, -, hnil⟩
    · exact ⟨hidle, fun h => by cases h⟩
    · exact ⟨hidle, fun h => by cases h⟩
    · rw [hnil, hidle, List.append_nil] at hq
      obtain ⟨hevents, hqueue⟩ := List.append_eq_nil_iff.mp hq
      rw [Function.update_self]
      exact ⟨hqueue, fun _ => hevents⟩

lemma routed_loop (hfds : Opened fds) {s t : System} (hR : s.Routed fds)
    (h : s.Loops fds t) : t.Routed fds := by
  have hsource := hR.source
  have hshaped := hR.shaped
  have hidle := hR.idle
  cases h with
  | wait ready hm => exact ⟨hsource, trivial, hidle⟩
  | leave hm => exact ⟨hsource, trivial, hidle⟩
  | own fd rest hm hfd => exact ⟨hsource, Or.inl ⟨rfl, rfl⟩, hidle⟩
  | unknown fd rest hm hfd => exact ⟨hsource, trivial, hidle⟩
  | execute fd rest p c hm hfd hp =>
    obtain ⟨-, hp', rfl⟩ := watchers_eq_some hfds hp
    refine ⟨hsource, Or.inr ?_, hidle⟩
    rcases hp' with rfl | rfl
    · exact Or.inl ⟨rfl, rfl⟩
    · exact Or.inr ⟨rfl, rfl, rfl⟩
  | produce p c pc pc' rest m' hm hstep =>
    obtain ⟨hsource', hidle', hnil⟩ := routed_produce hR hm hstep
    refine ⟨hsource', ?_, hidle'⟩
    rw [hm] at hshaped
    rcases hshaped with hC | hA | ⟨rfl, hc, -⟩
    · exact Or.inl hC
    · exact Or.inr (Or.inl hA)
    · exact Or.inr (Or.inr ⟨rfl, hc, hnil rfl⟩)
  | produced p c pc es rest m' hm hstep =>
    obtain ⟨hsource', hidle', -⟩ := routed_produce hR hm hstep
    refine ⟨hsource', ?_, hidle'⟩
    rw [hm] at hshaped
    rcases hshaped with ⟨-, hc⟩ | ⟨-, hc⟩ | ⟨-, hc, -⟩
    · cases hc
    · exact Option.some.inj hc
    · exact Option.some.inj hc
  | producedOwn p pc es rest m' hm hstep =>
    obtain ⟨hsource', hidle', -⟩ := routed_produce hR hm hstep
    exact ⟨hsource', trivial, hidle'⟩
  | executed c rest hm => exact ⟨hsource, trivial, hidle⟩
  | callReceive e es rest hm => exact ⟨hsource, trivial, hidle⟩
  | consume c e es rest hm hc =>
    rw [hm] at hshaped
    exact absurd hshaped hc
  | receive pc pc' e es rest m' hm hstep =>
    refine ⟨fun m => ?_, trivial, hidle⟩
    rw [← hsource m]
    exact update_eq (fun m => m.txEvent.fds) (Manager.receive_fds hstep) m
  | receivedEvent pc e es rest m' hm hstep =>
    refine ⟨fun m => ?_, rfl, hidle⟩
    rw [← hsource m]
    exact update_eq (fun m => m.txEvent.fds) (Manager.receive_fds hstep) m
  | dispatched rest hm => exact ⟨hsource, trivial, hidle⟩
  | dispatch e es rest hm =>
    refine ⟨fun m => ?_, trivial, ?_⟩
    · rw [← hsource m]
      exact consume_eq (fun m => m.txEvent.fds) (fun _ => rfl) s _ e m
    · rw [← hidle]
      exact consume_eq Manager.txQueue (fun _ => rfl) s _ e .managerB
  | incProduced es rest hm => exact ⟨hsource, trivial, hidle⟩

lemma routed_of_reachable (hfds : Opened fds) {maxQueueSize : ℕ} {s : System}
    (h : (program maxQueueSize fds).Reachable s) : s.Routed fds := by
  refine h.invariant (I := Routed fds) ?_ ?_
  · rintro s rfl
    exact routed_start
  · intro s a t hR ha
    cases a with
    | run data => exact routed_run hR ha
    | main ready => exact routed_loop hfds hR (loops_of_loop ha)

end System

end EventManager.Main
