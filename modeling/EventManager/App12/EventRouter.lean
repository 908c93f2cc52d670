import EventManager.App12.Manager

/-!
# The router of app12 and its managers

`EventRouter` keeps, for every descriptor, the producer that was added for it and, for
every event type, the list of the consumers that were added for it.  `WaitAndRoute` asks
the producers of the ready descriptors for their events and hands a clone of each event
to every consumer of its type but the producer itself.

`Program` is a program of this shape: any managers, each with its own thread, queue and
event, registered in any order.  `Program.system` is the machine of all the threads.  Seen
from one manager it is the machine `channel` (`Program.simulates_channel`).
-/

namespace EventManager.App12

open Steps

/-! ### Registration -/

/-- The members of `EventRouter`.  A weak pointer is the name `ω` of what it points to. -/
structure EventRouter (ω : Type) where
  /-- `producers`. -/
  producers : ℤ → Option ω
  /-- `consumers`; a type without an entry has no consumers. -/
  consumers : EventType → List ω

namespace EventRouter

variable {ω : Type}

/-- The constructor. -/
def create : EventRouter ω := ⟨fun _ => none, fun _ => []⟩

/-- `AddProducer`, when `epoll_ctl` returns `ret`: the new router, and whether the call
throws.  The entry is written before `epoll_ctl` is asked. -/
def addProducer (r : EventRouter ω) (fd : ℤ) (producer : ω) (ret : ℤ) : EventRouter ω × Bool :=
  ({ r with producers := Function.update r.producers fd (some producer) }, ret = -1)

/-- `AddConsumer`. -/
def addConsumer (r : EventRouter ω) (types : List EventType) (consumer : ω) : EventRouter ω :=
  types.foldl (fun r type => { r with
    consumers := Function.update r.consumers type (r.consumers type ++ [consumer]) }) r

/-- A consumer is listed for a type as often as the type occurs in its list. -/
lemma count_addConsumer [DecidableEq ω] (r : EventRouter ω) (types : List EventType)
    (consumer c : ω) (type : EventType) :
    ((r.addConsumer types consumer).consumers type).count c =
      (r.consumers type).count c + if consumer = c then types.count type else 0 := by
  induction types generalizing r with
  | nil => simp [addConsumer]
  | cons t types ih =>
    rw [addConsumer, List.foldl_cons, ← addConsumer, ih]
    by_cases ht : t = type
    · subst ht
      by_cases hc : consumer = c <;> simp [hc]
      omega
    · simp [List.count_cons_of_ne ht, Function.update_of_ne (Ne.symm ht)]

lemma addConsumer_producers (r : EventRouter ω) (types : List EventType) (consumer : ω) :
    (r.addConsumer types consumer).producers = r.producers := by
  induction types generalizing r with
  | nil => rfl
  | cons t types ih => rw [addConsumer, List.foldl_cons, ← addConsumer, ih]

end EventRouter

/-! ### The program -/

/-- The `id` of the `k`-th object that is made: `counter.fetch_add(1)` on 32 bits. -/
def autoId (k : ℕ) : Int32 := Int32.ofNat k

lemma autoId_inj {j k : ℕ} (hj : j < 2 ^ 32) (hk : k < 2 ^ 32) (h : autoId j = autoId k) :
    j = k := by
  have hbits := congrArg Int32.toBitVec h
  simp only [autoId, Int32.toBitVec_ofNat'] at hbits
  have hnat := congrArg BitVec.toNat hbits
  rwa [BitVec.toNat_ofNat, BitVec.toNat_ofNat, Nat.mod_eq_of_lt hj, Nat.mod_eq_of_lt hk] at hnat

/-- A call that `main` makes to register a manager. -/
inductive Registration (ι : Type)
  | addProducer (m : ι)
  | addConsumer (m : ι)
deriving DecidableEq

/-- A program of the shape of app12: its managers, and the calls that register them.  The names of
a manager's counters end in its `_threadName`, which differ: every manager has counters of its
own. -/
structure Program (ι : Type) where
  /-- `GetAutoId`. -/
  autoId : ι → Int32
  /-- The descriptors of `txEvent`. -/
  fds : ι → ℤ × ℤ
  /-- The capacity of `txQueue`. -/
  capacity : ι → ℕ
  /-- The event that a manager makes in its `k`-th call of `_runImpl`. -/
  event : ι → ℕ → Event
  /-- `WillConsume`. -/
  willConsume : ι → List EventType
  /-- The managers whose shared pointer is still held. -/
  alive : ι → Bool
  /-- The registration calls, in order; `epoll_ctl` succeeds. -/
  calls : List (Registration ι)

/-- What a manager has received. -/
structure Inbox (ι : Type) where
  /-- The counter behind `_eventRxCounter`. -/
  eventRx : ℕ
  /-- The events that `Consume` got, in order, each with the manager it came from. -/
  consumed : List (ι × Event)

/-- Where the router thread is in `WaitAndRoute`, with the ready descriptors that it has
still to look at. -/
inductive RouterPc (ι : Type)
  /-- Between two calls. -/
  | outside
  /-- At the head of the loop over the ready descriptors. -/
  | entries (rest : List ℤ)
  /-- In `producer->Produce()`. -/
  | produce (producer : ι) (pc : ProducePc) (rest : List ℤ)
  /-- At the head of the loop over the produced events. -/
  | events (producer : ι) (events : List Event) (rest : List ℤ)
  /-- At the head of the loop over the consumers of `event`. -/
  | consumers (producer : ι) (event : Event) (consumers : List ι) (events : List Event)
      (rest : List ℤ)

/-- The state of the program. -/
structure System (ι : Type) where
  /-- The sending halves of the managers. -/
  managers : ι → Manager
  /-- Their receiving halves. -/
  inboxes : ι → Inbox ι
  /-- The router thread. -/
  router : RouterPc ι

/-- A step of the program: the thread of a manager moves, or the router does, and when it
calls `epoll_wait` the descriptors `ready` are reported. -/
inductive SystemAction (ι : Type)
  | run (m : ι)
  | route (ready : List ℤ)

/-- The size of the array `events` of the router. -/
def maxEvents : ℕ := 10

namespace Program

variable {ι : Type} (app : Program ι)

/-- `weak_ptr::lock`. -/
def lock (m : ι) : Option ι := if app.alive m then some m else none

/-- One registration call. -/
def register (r : EventRouter ι) : Registration ι → EventRouter ι
  | .addProducer m => (r.addProducer (app.fds m).1 m 0).1
  | .addConsumer m => r.addConsumer (app.willConsume m) m

/-- The router after the registration calls. -/
def router : EventRouter ι := app.calls.foldl app.register .create

/-- The state in which `main` starts the threads. -/
def start : System ι where
  managers m := .create (app.fds m)
  inboxes _ := ⟨0, []⟩
  router := .outside

variable [DecidableEq ι]

/-- `Consume`, called by the router. -/
def consume (s : System ι) (producer consumer : ι) (event : Event) : ι → Inbox ι :=
  Function.update s.inboxes consumer
    ⟨(s.inboxes consumer).eventRx + 1,
      (s.inboxes consumer).consumed ++ [(producer, event)]⟩

/-- One step of `WaitAndRoute`, or of the loop of `main` that calls it. -/
def waitAndRoute (s : System ι) (ready : List ℤ) : Option (System ι) :=
  match s.router with
  | .outside =>
    if ready.length ≤ maxEvents then some { s with router := .entries ready } else none
  | .entries [] => some { s with router := .outside }
  | .entries (fd :: rest) =>
    match (app.router.producers fd).bind app.lock with
    | none => some { s with router := .entries rest }
    | some p => some { s with router := .produce p (.consume .load) rest }
  | .produce p pc rest =>
    ((s.managers p).produce pc).map fun r =>
      { s with
        managers := Function.update s.managers p r.1
        router := match r.2 with
          | .inl pc' => .produce p pc' rest
          | .inr events => .events p events rest }
  | .events _ [] rest => some { s with router := .entries rest }
  | .events p (e :: es) rest =>
    some { s with router := .consumers p e (app.router.consumers e.type) es rest }
  | .consumers p _ [] es rest => some { s with router := .events p es rest }
  | .consumers p e (w :: ws) es rest =>
    match app.lock w with
    | none => some { s with router := .consumers p e ws es rest }
    | some c =>
      if app.autoId c ≠ app.autoId p then
        some { s with
          inboxes := consume s p c e.clone
          router := .consumers p e ws es rest }
      else some { s with router := .consumers p e ws es rest }

/-- The machine of all the threads of the program. -/
def system : Machine (System ι) (SystemAction ι) where
  init s := s = app.start
  next s
    | .run m => some { s with
        managers := Function.update s.managers m
          ((s.managers m).runImpl (app.capacity m) (app.event m)) }
    | .route ready => app.waitAndRoute s ready

/-- What the program of `main` promises about its managers: the names given by `AutoId`
differ, all managers are alive, each is registered once as a producer and once as a
consumer, and none names a type twice. -/
structure WellFormed : Prop where
  autoId_injective : Function.Injective app.autoId
  alive : ∀ m, app.alive m = true
  producer_once : ∀ m, app.calls.count (.addProducer m) = 1
  consumer_once : ∀ m, app.calls.count (.addConsumer m) = 1
  types_nodup : ∀ m, (app.willConsume m).Nodup

end Program

/-- The managers of `app12.cpp`. -/
inductive Name
  | managerA
  | managerB
  | managerC
deriving DecidableEq

/-- `MAX_QUEUE_SIZE`. -/
def maxQueueSize : ℕ := 3500000

/-- The program of `app12.cpp`, when its pipes get the descriptors `fds`. -/
def app12 (fds : Name → ℤ × ℤ) : Program Name where
  autoId
    | .managerA => autoId 0
    | .managerB => autoId 1
    | .managerC => autoId 2
  fds := fds
  capacity _ := maxQueueSize
  event
    | .managerA => managerAEvent
    | .managerB => managerBEvent
    | .managerC => managerCEvent
  willConsume
    | .managerA => [.control, .serial]
    | .managerB => [.serial]
    | .managerC => [.status]
  alive _ := true
  calls := [.addProducer .managerA, .addProducer .managerB, .addProducer .managerC,
    .addConsumer .managerA, .addConsumer .managerB, .addConsumer .managerC]

theorem app12_wellFormed (fds : Name → ℤ × ℤ) : (app12 fds).WellFormed where
  autoId_injective a b h := by
    cases a <;> cases b <;>
      first
        | rfl
        | exact absurd (autoId_inj (by decide) (by decide) h) (by decide)
  alive _ := rfl
  producer_once m := by cases m <;> rfl
  consumer_once m := by cases m <;> rfl
  types_nodup m := by cases m <;> simp [app12]

namespace Program

variable {ι : Type} [DecidableEq ι] {app : Program ι}

/-! ### The consumers of a type -/

lemma count_register (r : EventRouter ι) (call : Registration ι) (c : ι) (type : EventType) :
    ((app.register r call).consumers type).count c =
      (r.consumers type).count c +
        if call = .addConsumer c then (app.willConsume c).count type else 0 := by
  cases call with
  | addProducer m => simp [register, EventRouter.addProducer]
  | addConsumer m =>
    rw [register, EventRouter.count_addConsumer]
    by_cases hm : m = c
    · subst hm; simp
    · simp [hm]

lemma count_foldl_register (calls : List (Registration ι)) (r : EventRouter ι) (c : ι)
    (type : EventType) :
    ((calls.foldl app.register r).consumers type).count c =
      (r.consumers type).count c +
        calls.count (.addConsumer c) * (app.willConsume c).count type := by
  induction calls generalizing r with
  | nil => simp
  | cons call calls ih =>
    rw [List.foldl_cons, ih, count_register, List.count_cons]
    by_cases hcall : call = .addConsumer c
    · simp [hcall, Nat.add_mul]
      omega
    · simp [hcall]

lemma count_consumers_of_once {c : ι} (h : app.calls.count (.addConsumer c) = 1)
    (type : EventType) :
    (app.router.consumers type).count c = (app.willConsume c).count type := by
  rw [router, count_foldl_register, h, Nat.one_mul]
  simp [EventRouter.create]

/-- A manager is listed once for each type that it names, and not for any other type. -/
lemma WellFormed.count_consumers (h : app.WellFormed) (c : ι) (type : EventType) :
    (app.router.consumers type).count c = if type ∈ app.willConsume c then 1 else 0 := by
  rw [count_consumers_of_once (h.consumer_once c), (h.types_nodup c).count]

/-! ### The steps of the router -/

/-- The steps of the router when all managers are alive, by the line of `WaitAndRoute`
that they take. -/
inductive Routes (app : Program ι) (s : System ι) : System ι → Prop
  | wait (ready : List ℤ) (h : s.router = .outside) :
      Routes app s { s with router := .entries ready }
  | leave (h : s.router = .entries []) : Routes app s { s with router := .outside }
  | unknown (fd : ℤ) (rest : List ℤ) (h : s.router = .entries (fd :: rest)) :
      Routes app s { s with router := .entries rest }
  | callProduce (fd : ℤ) (rest : List ℤ) (p : ι) (h : s.router = .entries (fd :: rest))
      (hp : app.router.producers fd = some p) :
      Routes app s { s with router := .produce p (.consume .load) rest }
  | produce (p : ι) (pc pc' : ProducePc) (rest : List ℤ) (m' : Manager)
      (h : s.router = .produce p pc rest)
      (hm : (s.managers p).produce pc = some (m', .inl pc')) :
      Routes app s { s with
        managers := Function.update s.managers p m'
        router := .produce p pc' rest }
  | produced (p : ι) (pc : ProducePc) (rest : List ℤ) (m' : Manager) (es : List Event)
      (h : s.router = .produce p pc rest)
      (hm : (s.managers p).produce pc = some (m', .inr es)) :
      Routes app s { s with
        managers := Function.update s.managers p m'
        router := .events p es rest }
  | endEvents (p : ι) (rest : List ℤ) (h : s.router = .events p [] rest) :
      Routes app s { s with router := .entries rest }
  | nextEvent (p : ι) (e : Event) (es : List Event) (rest : List ℤ)
      (h : s.router = .events p (e :: es) rest) :
      Routes app s { s with
        router := .consumers p e (app.router.consumers e.type) es rest }
  | endConsumers (p : ι) (e : Event) (es : List Event) (rest : List ℤ)
      (h : s.router = .consumers p e [] es rest) :
      Routes app s { s with router := .events p es rest }
  | skip (p : ι) (e : Event) (c : ι) (cs : List ι) (es : List Event) (rest : List ℤ)
      (h : s.router = .consumers p e (c :: cs) es rest)
      (hid : app.autoId c = app.autoId p) :
      Routes app s { s with router := .consumers p e cs es rest }
  | deliver (p : ι) (e : Event) (c : ι) (cs : List ι) (es : List Event) (rest : List ℤ)
      (h : s.router = .consumers p e (c :: cs) es rest)
      (hid : app.autoId c ≠ app.autoId p) :
      Routes app s { s with
        inboxes := consume s p c e
        router := .consumers p e cs es rest }

lemma routes_of_waitAndRoute (halive : ∀ m, app.alive m = true) {s t : System ι}
    {ready : List ℤ} (h : app.waitAndRoute s ready = some t) : app.Routes s t := by
  have hlock : ∀ m, app.lock m = some m := fun m => by simp [lock, halive m]
  unfold waitAndRoute at h
  match hr : s.router with
  | .outside =>
    simp only [hr] at h
    split at h
    · obtain rfl := Option.some.inj h
      exact .wait ready hr
    · cases h
  | .entries [] =>
    simp only [hr] at h
    obtain rfl := Option.some.inj h
    exact .leave hr
  | .entries (fd :: rest) =>
    simp only [hr] at h
    split at h
    · obtain rfl := Option.some.inj h
      exact .unknown fd rest hr
    · rename_i p hp
      obtain ⟨w, hw, hwp⟩ := Option.bind_eq_some_iff.mp hp
      obtain rfl : w = p := Option.some.inj ((hlock w).symm.trans hwp)
      obtain rfl := Option.some.inj h
      exact .callProduce fd rest w hr hw
  | .produce p pc rest =>
    simp only [hr] at h
    obtain ⟨⟨m', r⟩, hp, rfl⟩ := Option.map_eq_some_iff.mp h
    cases r with
    | inl pc' => exact .produce p pc pc' rest m' hr hp
    | inr es => exact .produced p pc rest m' es hr hp
  | .events p [] rest =>
    simp only [hr] at h
    obtain rfl := Option.some.inj h
    exact .endEvents p rest hr
  | .events p (e :: es) rest =>
    simp only [hr] at h
    obtain rfl := Option.some.inj h
    exact .nextEvent p e es rest hr
  | .consumers p e [] es rest =>
    simp only [hr] at h
    obtain rfl := Option.some.inj h
    exact .endConsumers p e es rest hr
  | .consumers p e (c :: cs) es rest =>
    simp only [hr, hlock, Event.clone_eq] at h
    split at h
    · rename_i hid
      obtain rfl := Option.some.inj h
      exact .deliver p e c cs es rest hr hid
    · rename_i hid
      obtain rfl := Option.some.inj h
      exact .skip p e c cs es rest hr (by simpa using hid)

/-! ### The program as seen from one manager -/

/-- The call of `Produce` on the manager `p` that the router is in. -/
def producing (p : ι) : RouterPc ι → Option ProducePc
  | .produce p' pc _ => if p' = p then some pc else none
  | _ => none

/-- The state of the machine `channel` that one manager and the router form. -/
def channelOf (s : System ι) (p : ι) : Channel := ⟨s.managers p, producing p s.router⟩

/-- Seen from one manager, the program is that manager and a router. -/
theorem simulates_channel (halive : ∀ m, app.alive m = true) (p : ι) :
    Simulation app.system (channel (app.capacity p) (app.event p) (app.fds p))
      fun s ch => ch = channelOf s p where
  init s hs := by
    obtain rfl : s = app.start := hs
    exact ⟨_, rfl, rfl⟩
  step s a s' ch hch h := by
    subst hch
    cases a with
    | run m =>
      obtain rfl := Option.some.inj h
      by_cases hm : m = p
      · subst hm
        exact Or.inr ⟨.run, _, rfl, by simp [channelOf]⟩
      · exact Or.inl (by simp [channelOf, Function.update_of_ne (Ne.symm hm)])
    | route ready =>
      cases routes_of_waitAndRoute halive h with
      | callProduce fd rest p' hr hp =>
        by_cases hp' : p' = p
        · refine Or.inr ⟨.callProduce, _, ?_, rfl⟩
          simp [channel, Channel.next, channelOf, producing, hr, hp']
        · exact Or.inl (by simp [channelOf, producing, hr, hp'])
      | produce p' pc pc' rest m' hr hm =>
        by_cases hp' : p' = p
        · subst hp'
          refine Or.inr ⟨.produce, _, ?_, rfl⟩
          simp [channel, Channel.next, channelOf, producing, hr, hm]
        · exact Or.inl (by
            simp [channelOf, producing, hr, hp', Function.update_of_ne (Ne.symm hp')])
      | produced p' pc rest m' es hr hm =>
        by_cases hp' : p' = p
        · subst hp'
          refine Or.inr ⟨.produce, _, ?_, rfl⟩
          simp [channel, Channel.next, channelOf, producing, hr, hm]
        · exact Or.inl (by
            simp [channelOf, producing, hr, hp', Function.update_of_ne (Ne.symm hp')])
      | wait ready hr => exact Or.inl (by simp [channelOf, producing, hr])
      | leave hr => exact Or.inl (by simp [channelOf, producing, hr])
      | unknown fd rest hr => exact Or.inl (by simp [channelOf, producing, hr])
      | endEvents p' rest hr => exact Or.inl (by simp [channelOf, producing, hr])
      | nextEvent p' e es rest hr => exact Or.inl (by simp [channelOf, producing, hr])
      | endConsumers p' e es rest hr => exact Or.inl (by simp [channelOf, producing, hr])
      | skip p' e c cs es rest hr hid => exact Or.inl (by simp [channelOf, producing, hr])
      | deliver p' e c cs es rest hr hid => exact Or.inl (by simp [channelOf, producing, hr])

/-- Where the router tests or pops a queue, the queue is not empty. -/
theorem txQueue_ne_nil (halive : ∀ m, app.alive m = true) {s : System ι}
    (h : app.system.Reachable s) {p : ι} {pc : ProducePc} {rest : List ℤ}
    (hr : s.router = .produce p pc rest)
    (hpc : ∃ es, pc = .front es ∨ pc = .pop es) : (s.managers p).txQueue ≠ [] := by
  obtain ⟨_, hch, rfl⟩ := (simulates_channel halive p).reachable h
  refine Channel.txQueue_ne_nil_of_popping hch ?_
  obtain ⟨es, rfl | rfl⟩ := hpc
  · exact ⟨es, Or.inl (by simp [channelOf, producing, hr])⟩
  · exact ⟨es, Or.inr (by simp [channelOf, producing, hr])⟩

/-- No wake-up is lost in the whole program: an event in the queue of a manager that is
not signalling, while the router is not in its `Produce`, has made its pipe readable. -/
theorem readable_of_waiting (halive : ∀ m, app.alive m = true) {p : ι}
    (hfds : (app.fds p).1 ≠ 0) {s : System ι} (h : app.system.Reachable s)
    (hq : (s.managers p).txQueue ≠ []) (hm : ¬ (s.managers p).pc.Signalling)
    (hp : producing p s.router = none) : (s.managers p).txEvent.Readable := by
  obtain ⟨_, hch, rfl⟩ := (simulates_channel halive p).reachable h
  exact (Channel.wakeInv_of_reachable hfds hch).readable hq hm hp

end Program

end EventManager.App12
