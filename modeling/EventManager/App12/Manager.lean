import EventManager.PipedEvent.Basic

/-!
# The managers of app12

A manager of `app12.cpp` sends events through its own queue and wakes the router through
its own event.  Its thread repeats `_runImpl`: it tries to put an event into the queue and
fires.  The router thread runs `Produce`: it consumes the signal and drains the queue.

`channel` is the machine of these two threads.  Its result is `no_lost_wakeup`: an event
cannot sit in the queue while nothing is left to wake the router, because `Produce`
clears the flag before it looks into the queue for the last time.
-/

namespace EventManager.App12

open Steps

/-! ### Events -/

/-- `Event::Type`. -/
inductive EventType
  | status
  | control
  | error
  | serial
deriving DecidableEq, Repr

/-- The classes derived from `Event`, with their members. -/
inductive Event
  | statusEvent (target : ℤ) (json : String)
  | controlEvent (target : ℤ) (json : String)
  | serialEvent (data : List UInt8)
deriving DecidableEq, Repr

namespace Event

/-- The member `type`. -/
def type : Event → EventType
  | statusEvent _ _ => .status
  | controlEvent _ _ => .control
  | serialEvent _ => .serial

/-- The member `target`. -/
def target : Event → ℤ
  | statusEvent target _ => target
  | controlEvent target _ => target
  | serialEvent _ => 0

/-- `Clone`: a new event of the same class from copies of the members. -/
def clone : Event → Event
  | statusEvent target json => statusEvent target json
  | controlEvent target json => controlEvent target json
  | serialEvent data => serialEvent data

@[simp] lemma clone_eq (e : Event) : e.clone = e := by cases e <;> rfl

end Event

/-! ### The thread of a manager -/

/-- The step that `_runImpl` takes next.  The loop of the thread starts it again when it
returns. -/
inductive RunPc
  | tryEmplace
  | incTx
  | fire (pc : FirePc)
  | incTxDropped
deriving DecidableEq, Repr

/-- The sending half of a manager. -/
structure Manager where
  /-- `txEvent`. -/
  txEvent : PipedEvent
  /-- `txQueue`, oldest event first. -/
  txQueue : List Event
  /-- The calls of `_runImpl` so far: the member `counter` before it wraps. -/
  counter : ℕ
  /-- Where the thread is in `_runImpl`. -/
  pc : RunPc
  /-- The counter behind `_eventTxCounter`. -/
  eventTx : ℕ
  /-- The counter behind `_eventTxDroppedCounter`. -/
  eventTxDropped : ℕ
  /-- The events that `try_emplace` took, in order. -/
  emplaced : List Event
  /-- The events that were popped from the queue, in order. -/
  popped : List Event
deriving DecidableEq, Repr

namespace Manager

/-- A manager before its thread is started. -/
def create (fds : ℤ × ℤ) : Manager := ⟨.create fds, [], 0, .tryEmplace, 0, 0, [], []⟩

/-- One step of `_runImpl`, with a queue for `capacity` events and the event `event k` in
the `k`-th call. -/
def runImpl (capacity : ℕ) (event : ℕ → Event) (m : Manager) : Manager :=
  match m.pc with
  | .tryEmplace =>
    if m.txQueue.length < capacity then
      { m with
        txQueue := m.txQueue ++ [event m.counter]
        emplaced := m.emplaced ++ [event m.counter]
        counter := m.counter + 1
        pc := .incTx }
    else { m with counter := m.counter + 1, pc := .incTxDropped }
  | .incTx => { m with eventTx := m.eventTx + 1, pc := .fire .load }
  | .fire pc =>
    { m with
      txEvent := (m.txEvent.fire true pc).1
      pc := match (m.txEvent.fire true pc).2 with
        | some pc' => .fire pc'
        | none => .tryEmplace }
  | .incTxDropped => { m with eventTxDropped := m.eventTxDropped + 1, pc := .tryEmplace }

end Manager

/-- The JSON text of the status and control events. -/
def statusOk : String := "\x7b\"status\":\"ok\"\x7d"

/-- The events of `ManagerA::_runImpl`; its `counter` has 32 bits. -/
def managerAEvent (k : ℕ) : Event :=
  if k % 2 ^ 32 % 2 = 0 then .statusEvent 0 statusOk else .serialEvent [0, 1, 2, 3]

/-- The events of `ManagerB::_runImpl`. -/
def managerBEvent (_ : ℕ) : Event := .serialEvent [0, 1, 2, 3]

/-- The events of `ManagerC::_runImpl`. -/
def managerCEvent (_ : ℕ) : Event := .controlEvent 0 statusOk

/-! ### Produce -/

/-- The step that `Produce` takes next, and the list `events` so far.  Between `front` and
`pop` the first slot of the queue holds a moved-from pointer, which nobody reads. -/
inductive ProducePc
  | consume (pc : ConsumePc)
  | empty (events : List Event)
  | front (events : List Event)
  | pop (events : List Event)
deriving DecidableEq, Repr

namespace ProducePc

/-- The call of `Consume` that `Produce` is in. -/
def consumePc : ProducePc → Option ConsumePc
  | consume pc => some pc
  | _ => none

/-- The list `events` so far. -/
def events : ProducePc → List Event
  | consume _ => []
  | empty events => events
  | front events => events
  | pop events => events

end ProducePc

namespace RunPc

/-- The call of `Fire` that `_runImpl` is in. -/
def firePc : RunPc → Option FirePc
  | fire pc => some pc
  | _ => none

/-- The thread is between a successful `try_emplace` and the return of `Fire`. -/
def Signalling : RunPc → Prop
  | incTx => True
  | fire _ => True
  | _ => False

instance : DecidablePred Signalling := fun pc => by
  cases pc <;> simp only [Signalling] <;> infer_instance

lemma firePc_of_not_signalling {pc : RunPc} (h : ¬ pc.Signalling) : pc.firePc = none := by
  cases pc with
  | fire pc => exact absurd trivial h
  | _ => rfl

end RunPc

namespace Manager

/-- One step of `Produce`: where it goes on, or the list that it returns. -/
def produce (m : Manager) : ProducePc → Option (Manager × (ProducePc ⊕ List Event))
  | .consume pc =>
    (m.txEvent.consume true pc).map fun p =>
      ({ m with txEvent := p.1 }, match p.2 with
        | some pc' => .inl (.consume pc')
        | none => .inl (.empty []))
  | .empty events =>
    if m.txQueue = [] then some (m, .inr events) else some (m, .inl (.front events))
  | .front events =>
    match m.txQueue with
    | [] => none
    | e :: _ => some (m, .inl (.pop (events ++ [e])))
  | .pop events =>
    match m.txQueue with
    | [] => none
    | e :: queue =>
      some ({ m with txQueue := queue, popped := m.popped ++ [e] }, .inl (.empty events))

lemma produce_cases {m m' : Manager} {pc : ProducePc} {r : ProducePc ⊕ List Event}
    (h : m.produce pc = some (m', r)) :
    (∃ cpc ev' cpc', pc = .consume cpc ∧ m.txEvent.consume true cpc = some (ev', cpc') ∧
      m' = { m with txEvent := ev' } ∧
      ((∃ c, cpc' = some c ∧ r = .inl (.consume c)) ∨
        (cpc' = none ∧ r = .inl (.empty [])))) ∨
    (∃ es, pc = .empty es ∧ m.txQueue = [] ∧ m' = m ∧ r = .inr es) ∨
    (∃ es, pc = .empty es ∧ m.txQueue ≠ [] ∧ m' = m ∧ r = .inl (.front es)) ∨
    (∃ es e q, pc = .front es ∧ m.txQueue = e :: q ∧ m' = m ∧
      r = .inl (.pop (es ++ [e]))) ∨
    (∃ es e q, pc = .pop es ∧ m.txQueue = e :: q ∧
      m' = { m with txQueue := q, popped := m.popped ++ [e] } ∧ r = .inl (.empty es)) := by
  cases pc with
  | consume cpc =>
    obtain ⟨⟨ev', cpc'⟩, hc, hp⟩ := Option.map_eq_some_iff.mp h
    simp only [Prod.mk.injEq] at hp
    obtain ⟨rfl, hr⟩ := hp
    refine Or.inl ⟨cpc, ev', cpc', rfl, hc, rfl, ?_⟩
    cases cpc' with
    | none => exact Or.inr ⟨rfl, hr.symm⟩
    | some c => exact Or.inl ⟨c, rfl, hr.symm⟩
  | empty es =>
    simp only [produce] at h
    split at h
    · cases h
      exact Or.inr (Or.inl ⟨es, rfl, ‹_›, rfl, rfl⟩)
    · cases h
      exact Or.inr (Or.inr (Or.inl ⟨es, rfl, ‹_›, rfl, rfl⟩))
  | front es =>
    simp only [produce] at h
    split at h
    · cases h
    · cases h
      exact Or.inr (Or.inr (Or.inr (Or.inl ⟨es, _, _, rfl, ‹_›, rfl, rfl⟩)))
  | pop es =>
    simp only [produce] at h
    split at h
    · cases h
    · cases h
      exact Or.inr (Or.inr (Or.inr (Or.inr ⟨es, _, _, rfl, ‹_›, rfl, rfl⟩)))

end Manager

/-! ### The two threads -/

/-- A manager, and the call of `Produce` that the router is in. -/
structure Channel where
  /-- The manager. -/
  manager : Manager
  /-- The call of `Produce` in progress. -/
  produce : Option ProducePc
deriving DecidableEq, Repr

namespace Channel

/-- The steps of the two threads. -/
inductive Action
  | run
  | callProduce
  | produce
deriving DecidableEq, Repr

/-- A new manager, and a router that does not look at it. -/
def create (fds : ℤ × ℤ) : Channel := ⟨.create fds, none⟩

/-- The effect of a step. -/
def next (capacity : ℕ) (event : ℕ → Event) (s : Channel) : Action → Option Channel
  | .run => some { s with manager := s.manager.runImpl capacity event }
  | .callProduce =>
    match s.produce with
    | none => some { s with produce := some (.consume .load) }
    | some _ => none
  | .produce =>
    match s.produce with
    | none => none
    | some pc => (s.manager.produce pc).map fun p => ⟨p.1, p.2.getLeft?⟩

end Channel

/-- One manager and the router, which may call `Produce` whether the pipe is readable or
not. -/
def channel (capacity : ℕ) (event : ℕ → Event) (fds : ℤ × ℤ) :
    Machine Channel Channel.Action where
  init s := s = Channel.create fds
  next := Channel.next capacity event

namespace Channel

variable {capacity : ℕ} {event : ℕ → Event} {fds : ℤ × ℤ}

lemma next_cases {s t : Channel} {a : Action} (h : (channel capacity event fds).next s a = some t) :
    (a = .run ∧ t = { s with manager := s.manager.runImpl capacity event }) ∨
    (a = .callProduce ∧ s.produce = none ∧ t = { s with produce := some (.consume .load) }) ∨
    (∃ pc m' r, a = .produce ∧ s.produce = some pc ∧ s.manager.produce pc = some (m', r) ∧
      t = ⟨m', r.getLeft?⟩) := by
  cases a with
  | run => exact Or.inl ⟨rfl, (Option.some.inj h).symm⟩
  | callProduce =>
    simp only [channel, next] at h
    split at h
    · exact Or.inr (Or.inl ⟨rfl, ‹_›, (Option.some.inj h).symm⟩)
    · cases h
  | produce =>
    simp only [channel, next] at h
    split at h
    · cases h
    · obtain ⟨⟨m', r⟩, hp, ht⟩ := Option.map_eq_some_iff.mp h
      exact Or.inr (Or.inr ⟨_, m', r, rfl, ‹_›, hp, ht.symm⟩)

/-! ### The queue is not empty where it is popped -/

/-- `Produce` is between its test of the queue and its `pop`. -/
def Popping (s : Channel) : Prop :=
  ∃ es, s.produce = some (.front es) ∨ s.produce = some (.pop es)

lemma runImpl_txQueue_prefix (capacity : ℕ) (event : ℕ → Event) (m : Manager) :
    m.txQueue <+: (m.runImpl capacity event).txQueue := by
  simp only [Manager.runImpl]
  split
  · split <;> simp
  · simp
  · simp
  · simp

/-- Between its test and its `pop` the router finds the queue not empty. -/
lemma txQueue_ne_nil_of_popping {s : Channel} (h : (channel capacity event fds).Reachable s)
    (hp : s.Popping) : s.manager.txQueue ≠ [] := by
  refine h.invariant (I := fun s => s.Popping → s.manager.txQueue ≠ []) ?_ ?_ hp
  · rintro s rfl ⟨es, h | h⟩ <;> cases h
  · intro s a t hI hs hpop
    rcases next_cases hs with ⟨-, rfl⟩ | ⟨-, -, rfl⟩ | ⟨pc, m', r, -, hpc, hstep, rfl⟩
    · have hne := hI hpop
      have hpre := runImpl_txQueue_prefix capacity event s.manager
      intro hnil
      rw [hnil] at hpre
      exact hne (List.prefix_nil.mp hpre)
    · obtain ⟨es, h | h⟩ := hpop <;> cases h
    · rcases Manager.produce_cases hstep with ⟨_, _, _, -, -, rfl, ⟨_, -, rfl⟩ | ⟨-, rfl⟩⟩ |
        ⟨_, -, -, rfl, rfl⟩ | ⟨_, -, hne, rfl, rfl⟩ | ⟨_, _, _, -, hq, rfl, rfl⟩ |
        ⟨_, _, _, -, -, rfl, rfl⟩
      · obtain ⟨es, h | h⟩ := hpop <;> cases h
      · obtain ⟨es, h | h⟩ := hpop <;> cases h
      · obtain ⟨es, h | h⟩ := hpop <;> cases h
      · exact hne
      · simp [hq]
      · obtain ⟨es, h | h⟩ := hpop <;> cases h

/-! ### Waking the router -/

/-- The call of `Consume` that the router is in. -/
def consumePc (s : Channel) : Option ConsumePc := s.produce.bind ProducePc.consumePc

/-- The event of the manager keeps its invariant, and whenever the queue holds an event,
the manager is about to set the flag, the flag is set, or the router has still to test
the queue. -/
structure WakeInv (s : Channel) : Prop where
  signal : s.manager.txEvent.SignalInv s.manager.pc.firePc s.consumePc
  wake : s.manager.txQueue ≠ [] → s.manager.pc.Signalling ∨
    s.manager.txEvent.fired = true ∨ s.produce ≠ none

lemma wakeInv_create (hfds : fds.1 ≠ 0) : (create fds).WakeInv :=
  ⟨.create hfds, fun h => absurd rfl h⟩

lemma wakeInv_run {s : Channel} (hI : s.WakeInv) :
    WakeInv { s with manager := s.manager.runImpl capacity event } := by
  obtain ⟨hsig, hwake⟩ := hI
  cases hpc : s.manager.pc with
  | tryEmplace =>
    rw [hpc] at hsig
    by_cases hlen : s.manager.txQueue.length < capacity
    · simp only [Manager.runImpl, hpc, if_pos hlen]
      exact ⟨hsig, fun _ => Or.inl trivial⟩
    · simp only [Manager.runImpl, hpc, if_neg hlen]
      rw [hpc] at hwake
      exact ⟨hsig, fun hq => Or.inr ((hwake hq).resolve_left id)⟩
  | incTx =>
    rw [hpc] at hsig
    simp only [Manager.runImpl, hpc]
    exact ⟨hsig.callFire, fun _ => Or.inl trivial⟩
  | fire pc =>
    rw [hpc] at hsig
    have hfire := hsig.fire
    cases hf : (s.manager.txEvent.fire true pc).2 with
    | some pc' =>
      rw [hf] at hfire
      simp only [Manager.runImpl, hpc, hf]
      exact ⟨hfire, fun _ => Or.inl trivial⟩
    | none =>
      -- `Fire` returns with the flag set, whether it has written or not
      rw [hf] at hfire
      simp only [Manager.runImpl, hpc, hf]
      exact ⟨hfire, fun _ => Or.inr (Or.inl (hsig.fired_of_fire hf))⟩
  | incTxDropped =>
    rw [hpc] at hsig hwake
    simp only [Manager.runImpl, hpc]
    exact ⟨hsig, fun hq => Or.inr ((hwake hq).resolve_left id)⟩

lemma wakeInv_produce {s : Channel} {pc : ProducePc} {m' : Manager}
    {r : ProducePc ⊕ List Event} (hI : s.WakeInv) (hpc : s.produce = some pc)
    (h : s.manager.produce pc = some (m', r)) : WakeInv ⟨m', r.getLeft?⟩ := by
  obtain ⟨hsig, hwake⟩ := hI
  have hc : s.consumePc = pc.consumePc := by simp [consumePc, hpc]
  rw [hc] at hsig
  rcases Manager.produce_cases h with
    ⟨cpc, ev', cpc', rfl, hcons, rfl, ⟨c, rfl, rfl⟩ | ⟨rfl, rfl⟩⟩ | ⟨es, rfl, hq, rfl, rfl⟩ |
    ⟨es, rfl, -, rfl, rfl⟩ | ⟨es, e, q, rfl, -, rfl, rfl⟩ | ⟨es, e, q, rfl, -, rfl, rfl⟩
  · exact ⟨hsig.consume hcons, fun _ => Or.inr (Or.inr (by simp))⟩
  · exact ⟨hsig.consume hcons, fun _ => Or.inr (Or.inr (by simp))⟩
  · -- `Produce` returns only after it has found the queue empty
    exact ⟨hsig, fun hne => absurd hq hne⟩
  · exact ⟨hsig, fun _ => Or.inr (Or.inr (by simp))⟩
  · exact ⟨hsig, fun _ => Or.inr (Or.inr (by simp))⟩
  · exact ⟨hsig, fun _ => Or.inr (Or.inr (by simp))⟩

lemma wakeInv_step {s t : Channel} {a : Action} (hI : s.WakeInv)
    (h : (channel capacity event fds).next s a = some t) : t.WakeInv := by
  rcases next_cases h with ⟨-, rfl⟩ | ⟨-, hp, rfl⟩ | ⟨pc, m', r, -, hpc, hstep, rfl⟩
  · exact wakeInv_run hI
  · have hsig := hI.signal
    rw [consumePc, hp] at hsig
    exact ⟨hsig.callConsume, fun _ => Or.inr (Or.inr (by simp))⟩
  · exact wakeInv_produce hI hpc hstep

lemma wakeInv_of_reachable (hfds : fds.1 ≠ 0) {s : Channel}
    (h : (channel capacity event fds).Reachable s) : s.WakeInv :=
  h.invariant (I := WakeInv) (by rintro s rfl; exact wakeInv_create hfds)
    fun _ _ _ hI hs => wakeInv_step hI hs

/-- An event in the queue, and neither thread at work: the pipe holds a byte. -/
lemma WakeInv.readable {s : Channel} (hI : s.WakeInv) (hq : s.manager.txQueue ≠ [])
    (hm : ¬ s.manager.pc.Signalling) (hp : s.produce = none) :
    s.manager.txEvent.Readable := by
  have hfired : s.manager.txEvent.fired = true := by
    rcases hI.wake hq with h | h | h
    · exact absurd h hm
    · exact h
    · exact absurd hp h
  have hfire : s.manager.pc.firePc = none := RunPc.firePc_of_not_signalling hm
  have hcons : s.consumePc = none := by rw [consumePc, hp, Option.bind_none]
  exact hI.signal.readable (by simp [hfire]) (by simp [hcons]) hfired

end Channel

/-- **No lost wake-up.**  When the queue holds an event, the manager is not between a
successful `try_emplace` and the return of `Fire`, and the router is not inside
`Produce`, then the pipe is readable.  The descriptor `0` is taken by the time `main`
makes a manager, so `pipe` does not return it. -/
theorem no_lost_wakeup {capacity : ℕ} {event : ℕ → Event} {fds : ℤ × ℤ} (hfds : fds.1 ≠ 0)
    {s : Channel} (h : (channel capacity event fds).Reachable s)
    (hq : s.manager.txQueue ≠ []) (hm : ¬ s.manager.pc.Signalling) (hp : s.produce = none) :
    s.manager.txEvent.Readable :=
  (Channel.wakeInv_of_reachable hfds h).readable hq hm hp

/-- A run in which a `Fire` finds the flag still set: the router has read the byte of the
first event and has not cleared the flag, and the second event goes into the queue.  The
router drains it, and a third event wakes the router again. -/
theorem no_lost_wakeup_skipped_fire :
    ∃ s, (channel 3500000 managerAEvent (3, 4)).Reachable s ∧ s.manager.txQueue ≠ [] ∧
      s.manager.txEvent.Readable := by
  have h₀ : (channel 3500000 managerAEvent (3, 4)).Reachable (Channel.create (3, 4)) :=
    .of_init rfl
  obtain ⟨s, hs, hq, hm, hp⟩ : ∃ s, (channel 3500000 managerAEvent (3, 4)).exec
      (Channel.create (3, 4))
      [.run, .run, .run, .run, .run, .callProduce, .produce, .produce,
        .run, .run, .run, .produce, .produce, .produce, .produce, .produce, .produce,
        .produce, .produce, .run, .run, .run, .run, .run] = some s ∧
      s.manager.txQueue ≠ [] ∧ ¬ s.manager.pc.Signalling ∧ s.produce = none :=
    ⟨_, rfl, by decide, by decide, rfl⟩
  exact ⟨s, h₀.exec hs, hq, no_lost_wakeup (by decide) (h₀.exec hs) hq hm hp⟩

end EventManager.App12
