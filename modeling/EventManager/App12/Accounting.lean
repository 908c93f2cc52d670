import EventManager.App12.Delivery

/-!
# The counters of app12

The counters are incremented by two threads, and not where the queues change: `eventTx` is
incremented after `try_emplace`, so that the router may deliver an event that is not counted
yet, and `eventRx` when the router hands over an event that it popped long before.  What the
router still owes a manager makes up the difference (`System.Received`), and it owes nothing
outside of `WaitAndRoute` (`metric_accounting`).
-/

namespace EventManager.App12

open Steps

/-! ### The counters of the sending side -/

namespace Manager

/-- The calls of `_runImpl` that are past the increment of their branch: all calls so far,
but not the one that is still before it. -/
def accounted (m : Manager) : ℕ :=
  match m.pc with
  | .incTx => m.counter - 1
  | .incTxDropped => m.counter - 1
  | _ => m.counter

/-- The counters of the sending side agree with the queue and with the calls so far. -/
structure Counted (m : Manager) : Prop where
  calls : m.eventTx + m.eventTxDropped +
    (if m.pc = .incTx ∨ m.pc = .incTxDropped then 1 else 0) = m.counter
  queue : m.popped.length + m.txQueue.length = m.eventTx + if m.pc = .incTx then 1 else 0

lemma counted_create (fds : ℤ × ℤ) : (create fds).Counted := ⟨rfl, rfl⟩

lemma counted_run {m : Manager} (hC : m.Counted) (capacity : ℕ) (event : ℕ → Event) :
    (m.runImpl capacity event).Counted := by
  obtain ⟨hcalls, hqueue⟩ := hC
  cases hpc : m.pc with
  | tryEmplace =>
    simp only [hpc, reduceCtorEq, or_self, if_false, Nat.add_zero] at hcalls hqueue
    by_cases hlen : m.txQueue.length < capacity
    · simp only [runImpl, hpc, if_pos hlen]
      refine ⟨?_, ?_⟩
      · simp only [reduceCtorEq, or_false, if_true]
        omega
      · simp only [if_true, List.length_append, List.length_singleton]
        omega
    · simp only [runImpl, hpc, if_neg hlen]
      refine ⟨?_, ?_⟩
      · simp only [reduceCtorEq, or_true, if_true]
        omega
      · simp only [reduceCtorEq, if_false]
        omega
  | incTx =>
    simp only [hpc, reduceCtorEq, or_false, if_true] at hcalls hqueue
    simp only [runImpl, hpc]
    refine ⟨?_, ?_⟩
    · simp only [reduceCtorEq, or_self, if_false]
      omega
    · simp only [reduceCtorEq, if_false]
      omega
  | fire pc =>
    simp only [hpc, reduceCtorEq, or_self, if_false, Nat.add_zero] at hcalls hqueue
    simp only [runImpl, hpc]
    cases (m.txEvent.fire true pc).2 with
    | some pc' => exact ⟨by simpa using hcalls, by simpa using hqueue⟩
    | none => exact ⟨by simpa using hcalls, by simpa using hqueue⟩
  | incTxDropped =>
    simp only [hpc, reduceCtorEq, or_true, if_true, if_false] at hcalls hqueue
    simp only [runImpl, hpc]
    refine ⟨?_, ?_⟩
    · simp only [reduceCtorEq, or_self, if_false]
      omega
    · simpa using hqueue

lemma counted_produce {m m' : Manager} {pc : ProducePc} {r : ProducePc ⊕ List Event}
    (hC : m.Counted) (h : m.produce pc = some (m', r)) : m'.Counted := by
  obtain ⟨hcalls, hqueue⟩ := hC
  rcases produce_cases h with ⟨cpc, ev', cpc', -, -, rfl, -⟩ | ⟨es, -, -, rfl, -⟩ |
    ⟨es, -, -, rfl, -⟩ | ⟨es, e, q, -, -, rfl, -⟩ | ⟨es, e, q, -, hq, rfl, -⟩
  · exact ⟨hcalls, hqueue⟩
  · exact ⟨hcalls, hqueue⟩
  · exact ⟨hcalls, hqueue⟩
  · exact ⟨hcalls, hqueue⟩
  · refine ⟨hcalls, ?_⟩
    rw [hq, List.length_cons] at hqueue
    simp only [List.length_append, List.length_singleton]
    omega

lemma Counted.eq_accounted {m : Manager} (hC : m.Counted) :
    m.eventTx + m.eventTxDropped = m.accounted := by
  have hcalls := hC.calls
  cases hpc : m.pc with
  | tryEmplace => simpa [accounted, hpc] using hcalls
  | fire pc => simpa [accounted, hpc] using hcalls
  | incTx =>
    simp only [hpc, true_or, if_true] at hcalls
    simp only [accounted, hpc]
    omega
  | incTxDropped =>
    simp only [hpc, or_true, if_true] at hcalls
    simp only [accounted, hpc]
    omega

end Manager

/-! ### Produce -/

/-- The events that `Produce` has collected and popped. -/
def ProducePc.popped : ProducePc → List Event
  | consume _ => []
  | empty events => events
  | front events => events
  | pop events => events.dropLast

namespace Channel

/-- Between `front` and `pop` the last event that was collected is the first one of the
queue. -/
def Fronted (s : Channel) : Prop :=
  ∀ es, s.produce = some (.pop es) → ∃ es' e q, es = es' ++ [e] ∧ s.manager.txQueue = e :: q

lemma fronted_of_reachable {capacity : ℕ} {event : ℕ → Event} {fds : ℤ × ℤ} {s : Channel}
    (h : (channel capacity event fds).Reachable s) : s.Fronted := by
  refine h.invariant (I := Fronted) ?_ ?_
  · rintro s rfl es hes
    cases hes
  · intro s a t hF hs es hes
    rcases next_cases hs with ⟨-, rfl⟩ | ⟨-, -, rfl⟩ | ⟨pc, m', r, -, -, hstep, rfl⟩
    · -- the manager only appends to the queue
      obtain ⟨es', e, q, rfl, hq⟩ := hF es hes
      obtain ⟨q', hq'⟩ := runImpl_txQueue_prefix capacity event s.manager
      rw [hq, List.cons_append] at hq'
      exact ⟨es', e, q ++ q', rfl, hq'.symm⟩
    · cases hes
    · rcases Manager.produce_cases hstep with ⟨_, _, _, -, -, rfl, ⟨_, -, rfl⟩ | ⟨-, rfl⟩⟩ |
        ⟨_, -, -, rfl, rfl⟩ | ⟨_, -, -, rfl, rfl⟩ | ⟨es', e, q, -, hq, rfl, rfl⟩ |
        ⟨_, _, _, -, -, rfl, rfl⟩
      · cases hes
      · cases hes
      · cases hes
      · cases hes
      · cases hes
        exact ⟨es', e, q, rfl, hq⟩
      · cases hes

lemma counted_of_reachable {capacity : ℕ} {event : ℕ → Event} {fds : ℤ × ℤ} {s : Channel}
    (h : (channel capacity event fds).Reachable s) : s.manager.Counted := by
  refine h.invariant (I := fun s => s.manager.Counted) ?_ ?_
  · rintro s rfl
    exact Manager.counted_create fds
  · intro s a t hC hs
    rcases next_cases hs with ⟨-, rfl⟩ | ⟨-, -, rfl⟩ | ⟨pc, m', r, -, -, hstep, rfl⟩
    · exact Manager.counted_run hC capacity event
    · exact hC
    · exact Manager.counted_produce hC hstep

end Channel

/-- A step of `Produce` pops what it adds to the events that it has collected and popped. -/
lemma Manager.produce_popped {m m' : Manager} {pc : ProducePc} {r : ProducePc ⊕ List Event}
    (hF : Channel.Fronted ⟨m, some pc⟩) (h : m.produce pc = some (m', r)) :
    ∃ l, m'.popped = m.popped ++ l ∧ r.elim ProducePc.popped id = pc.popped ++ l := by
  rcases produce_cases h with ⟨cpc, ev', cpc', rfl, -, rfl, ⟨_, -, rfl⟩ | ⟨-, rfl⟩⟩ |
    ⟨es, rfl, -, rfl, rfl⟩ | ⟨es, rfl, -, rfl, rfl⟩ | ⟨es, e, q, rfl, -, rfl, rfl⟩ |
    ⟨es, e, q, rfl, hq, rfl, rfl⟩
  · exact ⟨[], by simp, rfl⟩
  · exact ⟨[], by simp, rfl⟩
  · exact ⟨[], by simp, by simp [ProducePc.popped]⟩
  · exact ⟨[], by simp, by simp [ProducePc.popped]⟩
  · exact ⟨[], by simp, by simp [ProducePc.popped]⟩
  · obtain ⟨es', e', q', rfl, hq'⟩ := hF es rfl
    rw [hq] at hq'
    cases hq'
    exact ⟨[e], rfl, by simp [ProducePc.popped]⟩

/-! ### What the router owes a manager -/

namespace Program

variable {ι : Type} (app : Program ι)

/-- How many of the events are of a type that `c` registered for; a type counts as often as
it is registered. -/
def wanted (c : ι) (es : List Event) : ℕ :=
  (es.map fun e => (app.willConsume c).count e.type).sum

variable [DecidableEq ι]

/-- What `main` promises about the managers when they may name a type several times. -/
structure Registered : Prop where
  autoId_injective : Function.Injective app.autoId
  alive : ∀ m, app.alive m = true
  producer_once : ∀ m, app.calls.count (.addProducer m) = 1
  consumer_once : ∀ m, app.calls.count (.addConsumer m) = 1

/-- How often `Consume` of the manager `c` will still be called for the events that the
router has popped. -/
def owed (c : ι) : RouterPc ι → ℕ
  | .produce p pc _ => if p = c then 0 else app.wanted c pc.popped
  | .events p es _ => if p = c then 0 else app.wanted c es
  | .consumers p _ cs es _ => if p = c then 0 else cs.count c + app.wanted c es
  | _ => 0

variable {app}

omit [DecidableEq ι] in
lemma wanted_append (c : ι) (es es' : List Event) :
    app.wanted c (es ++ es') = app.wanted c es + app.wanted c es' := by
  simp [wanted]

omit [DecidableEq ι] in
lemma wanted_cons (c : ι) (e : Event) (es : List Event) :
    app.wanted c (e :: es) = (app.willConsume c).count e.type + app.wanted c es := by
  simp [wanted]

variable [Fintype ι]

variable (app) in
/-- How often `Consume` of the manager `c` is called for the events that have been popped. -/
def due (managers : ι → Manager) (c : ι) : ℕ :=
  ∑ p ∈ Finset.univ.erase c, app.wanted c (managers p).popped

variable (app) in
/-- The manager `c` has received what is due, but for what the router owes it. -/
def Received (s : System ι) (c : ι) : Prop :=
  (s.inboxes c).eventRx + app.owed c s.router = app.due s.managers c

/-- The events that are popped from the queue of `p` are due to everybody else. -/
lemma due_pop {managers : ι → Manager} {p : ι} {m' : Manager} {l : List Event}
    (hl : m'.popped = (managers p).popped ++ l) (c : ι) :
    app.due (Function.update managers p m') c =
      app.due managers c + if p = c then 0 else app.wanted c l := by
  by_cases hp : p = c
  · rw [if_pos hp, Nat.add_zero]
    refine Finset.sum_congr rfl fun q hq => ?_
    have hqp : q ≠ p := by
      rw [hp]
      exact Finset.ne_of_mem_erase hq
    simp only [Function.update_of_ne hqp]
  · rw [if_neg hp]
    have hmem : p ∈ Finset.univ.erase c := Finset.mem_erase.mpr ⟨hp, Finset.mem_univ p⟩
    have hsum := sum_update_add hmem managers (fun m => app.wanted c m.popped) m'
    rw [hl, wanted_append] at hsum
    simp only [due]
    omega

omit [DecidableEq ι] [Fintype ι] in
lemma runImpl_popped (capacity : ℕ) (event : ℕ → Event) (m : Manager) :
    (m.runImpl capacity event).popped = m.popped := by
  simp only [Manager.runImpl]
  split
  · split <;> rfl
  · rfl
  · rfl
  · rfl

/-- What `Produce` pops the router owes from then on. -/
lemma received_produce {s : System ι} {c p : ι} {pc : ProducePc} {rest : List ℤ} {m' : Manager}
    {r : ProducePc ⊕ List Event} {router' : RouterPc ι} (hF : ∀ p, (channelOf s p).Fronted)
    (hC : app.Received s c) (hr : s.router = .produce p pc rest)
    (hm : (s.managers p).produce pc = some (m', r))
    (howed : app.owed c router' =
      if p = c then 0 else app.wanted c (r.elim ProducePc.popped id)) :
    app.Received { s with
      managers := Function.update s.managers p m', router := router' } c := by
  have hfront : Channel.Fronted ⟨s.managers p, some pc⟩ := by
    have hp := hF p
    rw [channelOf, hr, producing, if_pos rfl] at hp
    exact hp
  obtain ⟨l, hpop, hcol⟩ := Manager.produce_popped hfront hm
  simp only [Received] at hC ⊢
  rw [hr] at hC
  rw [due_pop hpop, ← hC, howed, hcol]
  simp only [owed]
  split
  · omega
  · rw [wanted_append]
    omega

lemma received_route (happ : app.Registered) {s t : System ι} {c : ι}
    (hF : ∀ p, (channelOf s p).Fronted) (hC : app.Received s c) (h : app.Routes s t) :
    app.Received t c := by
  cases h with
  | wait ready hr =>
    rw [Received, hr] at hC
    exact hC
  | leave hr =>
    rw [Received, hr] at hC
    exact hC
  | unknown fd rest hr =>
    rw [Received, hr] at hC
    exact hC
  | callProduce fd rest p hr hp =>
    rw [Received, hr] at hC
    simpa [Received, owed, ProducePc.popped, wanted] using hC
  | produce p pc pc' rest m' hr hm => exact received_produce hF hC hr hm rfl
  | produced p pc rest m' es hr hm => exact received_produce hF hC hr hm rfl
  | endEvents p rest hr =>
    rw [Received, hr] at hC
    simpa [Received, owed, wanted] using hC
  | nextEvent p e es rest hr =>
    rw [Received, hr] at hC
    simp only [owed, wanted_cons] at hC
    simp only [Received, owed, count_consumers_of_once (happ.consumer_once c)]
    exact hC
  | endConsumers p e es rest hr =>
    rw [Received, hr] at hC
    simpa [Received, owed] using hC
  | skip p e c' cs es rest hr hid =>
    obtain rfl : c' = p := happ.autoId_injective hid
    rw [Received, hr] at hC
    simp only [Received, owed] at hC ⊢
    by_cases hp : c' = c
    · rw [if_pos hp] at hC ⊢
      exact hC
    · rw [if_neg hp, List.count_cons_of_ne hp] at hC
      rw [if_neg hp]
      exact hC
  | deliver p e c' cs es rest hr hid =>
    have hne : p ≠ c' := fun hp => hid (by rw [hp])
    rw [Received, hr] at hC
    simp only [Received, owed, consume] at hC ⊢
    by_cases hc : c' = c
    · -- the router owes one call less
      subst hc
      rw [if_neg hne, List.count_cons_self] at hC
      rw [if_neg hne, Function.update_self]
      simp only
      omega
    · rw [Function.update_of_ne (Ne.symm hc)]
      rw [List.count_cons_of_ne hc] at hC
      exact hC

/-- Every manager has received what is due, but for what the router owes it. -/
lemma received_of_reachable (happ : app.Registered) {s : System ι}
    (h : app.system.Reachable s) (c : ι) : app.Received s c := by
  refine h.invariant_of_reachable (I := fun s => app.Received s c) ?_ ?_
  · intro s hs
    obtain rfl : s = app.start := hs
    simp [Received, owed, start, due, wanted, Manager.create]
  · intro s a t hs hC h
    cases a with
    | run m =>
      obtain rfl := Option.some.inj h
      have hpop : app.due (Function.update s.managers m
          ((s.managers m).runImpl (app.capacity m) (app.event m))) c = app.due s.managers c := by
        rw [due_pop (l := []) (by rw [runImpl_popped, List.append_nil]) c]
        simp [wanted]
      rw [Received] at hC ⊢
      rw [hpop]
      exact hC
    | route ready =>
      refine received_route happ (fun p => ?_) hC (routes_of_waitAndRoute happ.alive h)
      obtain ⟨_, hch, rfl⟩ := (simulates_channel happ.alive p).reachable hs
      exact Channel.fronted_of_reachable hch

omit [Fintype ι] in
lemma counted_of_reachable (happ : app.Registered) {s : System ι}
    (h : app.system.Reachable s) (m : ι) : (s.managers m).Counted := by
  obtain ⟨_, hch, rfl⟩ := (simulates_channel happ.alive m).reachable h
  exact Channel.counted_of_reachable hch

end Program

/-- **Metric accounting.**  Every call of `_runImpl` that is past its increment is counted
once, as sent or as dropped; the events that have been popped and those in the queue are the
ones that are counted as sent, and one more exactly between a successful `try_emplace` and
its increment; and outside of `WaitAndRoute` a manager has received the events popped from
the queues of all others, each as often as it registered for its type. -/
theorem metric_accounting {ι : Type} [DecidableEq ι] [Fintype ι] {app : Program ι}
    (happ : app.Registered) {s : System ι} (h : app.system.Reachable s) (m : ι) :
    (s.managers m).eventTx + (s.managers m).eventTxDropped = (s.managers m).accounted ∧
    (s.managers m).popped.length + (s.managers m).txQueue.length =
      (s.managers m).eventTx + (if (s.managers m).pc = .incTx then 1 else 0) ∧
    (s.router = .outside → (s.inboxes m).eventRx =
      ∑ p ∈ Finset.univ.erase m, app.wanted m (s.managers p).popped) := by
  have hcounted := Program.counted_of_reachable happ h m
  refine ⟨hcounted.eq_accounted, hcounted.queue, fun hr => ?_⟩
  have hreceived := Program.received_of_reachable happ h m
  rw [Program.Received, hr] at hreceived
  exact hreceived

instance : Fintype Name :=
  ⟨{.managerA, .managerB, .managerC}, fun m => by cases m <;> decide⟩

lemma app12_registered (fds : Name → ℤ × ℤ) : (app12 fds).Registered where
  autoId_injective := (app12_wellFormed fds).autoId_injective
  alive := (app12_wellFormed fds).alive
  producer_once := (app12_wellFormed fds).producer_once
  consumer_once := (app12_wellFormed fds).consumer_once

/-- `ManagerB` has received the second event of `ManagerA`, which is not counted as sent
yet. -/
theorem metric_accounting_ahead : ∃ s, (app12 sampleFds).system.Reachable s ∧
    s.router = .outside ∧ (s.managers .managerA).eventTx = 1 ∧
    (s.managers .managerA).popped.length + (s.managers .managerA).txQueue.length = 2 ∧
    (s.inboxes .managerB).eventRx = 1 ∧
    (s.inboxes .managerB).eventRx = ∑ p ∈ Finset.univ.erase .managerB,
      (app12 sampleFds).wanted .managerB (s.managers p).popped := by
  have h₀ : (app12 sampleFds).system.Reachable (app12 sampleFds).start := .of_init rfl
  obtain ⟨s, hs, hr, htx, hpc, hrx⟩ : ∃ s, (app12 sampleFds).system.exec
      (app12 sampleFds).start
      (List.replicate 6 (SystemAction.run Name.managerA) ++
        List.replicate 21 (SystemAction.route [5])) = some s ∧
      s.router = .outside ∧ (s.managers .managerA).eventTx = 1 ∧
      (s.managers .managerA).pc = .incTx ∧ (s.inboxes .managerB).eventRx = 1 :=
    ⟨_, rfl, rfl, rfl, rfl, rfl⟩
  have hA := (metric_accounting (app12_registered _) (h₀.exec hs) .managerA).2.1
  rw [htx, hpc, if_pos rfl] at hA
  exact ⟨s, h₀.exec hs, hr, htx, hA, hrx,
    (metric_accounting (app12_registered _) (h₀.exec hs) .managerB).2.2 hr⟩

end EventManager.App12
