import EventManager.Lib.Fifo
import EventManager.Main.Loop

/-!
# Conservation round the loop of main

The events of `ManagerA` pass through two channels: from the queue of `ManagerA` to
`ManagerC`, and from the queue of `ManagerC` back to `ManagerA`.  On the way are the events in
the queue of the sender and those of the list that `Produce` has returned and that `Execute`,
or `main` itself, has still to go through.  `ManagerB` sends nothing and is sent nothing.

The counters follow the logs with a delay of at most one step.  Between two entries of the
array of ready descriptors nothing is held up anywhere, and the counters and the queues
account for every event (`conservation`).
-/

namespace EventManager.Main

open Steps

/-- The event that `Consume` of `ManagerC` has still to put into its queue. -/
def ReceivePc.pending (event : Event) : ReceivePc → List Event
  | lock => [event]
  | emplace => [event]
  | _ => []

namespace MainPc

/-- The events that `main` holds for `ManagerC`. -/
def toC : MainPc → List Event
  | produce _ (some _) pc _ => pc.events
  | execute _ es _ => es
  | receive pc e es _ => pc.pending e ++ es
  | _ => []

/-- The events of `ManagerC` that `main` holds. -/
def fromC : MainPc → List Event
  | produce _ none pc _ => pc.events
  | dispatch es _ => es
  | incProduced es _ => es
  | _ => []

end MainPc

lemma Manager.receive_pending {m m' : Manager} {e : Event} {pc : ReceivePc}
    {pc' : Option ReceivePc} (h : m.receive e pc = some (m', pc')) :
    pc.pending e = received e pc ++ pc'.elim [] (ReceivePc.pending e) := by
  rcases receive_cases h with ⟨rfl, -, rfl⟩ | ⟨rfl, -, rfl⟩ | ⟨rfl, -, rfl⟩ | ⟨rfl, -, rfl⟩ |
    ⟨fpc, rfl, -, ⟨fpc', -, rfl⟩ | ⟨-, rfl⟩⟩ | ⟨rfl, -, rfl⟩ <;>
    rfl

lemma length_emplaced (e : Event) (pc : RunPc) : (emplaced e pc).length ≤ 1 := by
  cases pc <;> simp [emplaced]

lemma length_received (e : Event) (pc : ReceivePc) : (received e pc).length ≤ 1 := by
  cases pc <;> simp [received]

namespace System

variable {fds : Name → ℤ × ℤ} {maxQueueSize : ℕ}

/-- The events on the way to `ManagerC`. -/
def wayToC (s : System) : List Event := s.main.toC ++ (s.managers .managerA).txQueue

/-- The events on the way from `ManagerC`. -/
def wayFromC (s : System) : List Event := s.main.fromC ++ (s.managers .managerC).txQueue

/-! ### From ManagerA to ManagerC -/

lemma effect_toC_run {s t : System} {data : ℤ} (h : s.runImpl maxQueueSize data = some t) :
    Fifo.Effect enqueued (consumed · .managerC) wayToC s t := by
  obtain ⟨m', pc', hm, rfl⟩ := runImpl_eq_some h
  refine .of_send (length_emplaced (.eventA data) s.run) rfl rfl ?_
  simp only [wayToC, Function.update_self, Manager.runImpl_txQueue hm, List.append_assoc]

lemma effect_toC_loop {s t : System} (hR : s.Routed fds) (h : s.Loops fds t) :
    Fifo.Effect enqueued (consumed · .managerC) wayToC s t := by
  obtain ⟨-, hshaped, hidle⟩ := hR
  -- a step that changes nothing but where `main` is
  have hmove : ∀ main' : MainPc, main'.toC = s.main.toC →
      Fifo.Effect enqueued (consumed · .managerC) wayToC s { s with main := main' } :=
    fun main' heq => .stay rfl rfl (by rw [wayToC, wayToC, heq])
  cases h with
  | wait ready hm => exact hmove _ (by rw [hm]; rfl)
  | leave hm => exact hmove _ (by rw [hm]; rfl)
  | own fd rest hm hfd => exact hmove _ (by rw [hm]; rfl)
  | unknown fd rest hm hfd => exact hmove _ (by rw [hm]; rfl)
  | execute fd rest p c hm hfd hp => exact hmove _ (by rw [hm]; rfl)
  | produce p c pc pc' rest m' hm hstep =>
    have hq := Manager.produce_txQueue hstep
    refine .stay rfl rfl ?_
    rw [hm] at hshaped
    rw [wayToC, wayToC, hm]
    rcases hshaped with ⟨rfl, rfl⟩ | ⟨rfl, rfl⟩ | ⟨rfl, rfl, hnil⟩
    · rfl
    · simp only [Function.update_self]
      exact hq
    · rw [hnil, hidle, List.append_nil] at hq
      have hnil' : pc'.events = [] := (List.append_eq_nil_iff.mp hq).1
      simp [MainPc.toC, hnil, hnil']
  | produced p c pc es rest m' hm hstep =>
    have hq := Manager.produce_txQueue hstep
    refine .stay rfl rfl ?_
    rw [hm] at hshaped
    rw [wayToC, wayToC, hm]
    rcases hshaped with ⟨-, hc⟩ | ⟨rfl, -⟩ | ⟨rfl, -, hnil⟩
    · cases hc
    · simp only [Function.update_self]
      exact hq
    · rw [hnil, hidle, List.append_nil] at hq
      have hnil' : es = [] := (List.append_eq_nil_iff.mp hq).1
      simp [MainPc.toC, hnil, hnil']
  | producedOwn p pc es rest m' hm hstep =>
    refine .stay rfl rfl ?_
    rw [hm] at hshaped
    rw [wayToC, wayToC, hm]
    rcases hshaped with ⟨rfl, -⟩ | ⟨-, hc⟩ | ⟨-, hc, -⟩
    · rfl
    · cases hc
    · cases hc
  | executed c rest hm => exact hmove _ (by rw [hm]; rfl)
  | callReceive e es rest hm => exact hmove _ (by rw [hm]; rfl)
  | consume c e es rest hm hc =>
    rw [hm] at hshaped
    exact absurd hshaped hc
  | receive pc pc' e es rest m' hm hstep =>
    refine .of_receive (length_received e pc) rfl (by simp only [Function.update_self]) ?_
    have hpend := Manager.receive_pending hstep
    rw [wayToC, hm, MainPc.toC, hpend]
    simp [wayToC, MainPc.toC]
  | receivedEvent pc e es rest m' hm hstep =>
    refine .of_receive (length_received e pc) rfl (by simp only [Function.update_self]) ?_
    have hpend := Manager.receive_pending hstep
    rw [wayToC, hm, MainPc.toC, hpend]
    simp [wayToC, MainPc.toC]
  | dispatched rest hm => exact hmove _ (by rw [hm]; rfl)
  | dispatch e es rest hm =>
    refine .stay rfl ?_ ?_
    · cases e <;> rfl
    · rw [wayToC, wayToC, hm]
      exact congrArg _ (consume_eq Manager.txQueue (fun _ => rfl) s _ e _)
  | incProduced es rest hm => exact .stay rfl rfl (by rw [wayToC, wayToC, hm]; rfl)

/-- To `ManagerC` the program is a channel. -/
theorem simulates_toC (hfds : Opened fds) :
    Simulation (program maxQueueSize fds) (Fifo.machine Event) fun s f =>
      (program maxQueueSize fds).Reachable s ∧
        Fifo.View enqueued (consumed · .managerC) wayToC s f := by
  refine Fifo.simulation ?_ ?_
  · rintro s rfl
    exact ⟨rfl, rfl, rfl⟩
  · intro s a t hs _ ha
    cases a with
    | run data => exact effect_toC_run ha
    | main ready => exact effect_toC_loop (routed_of_reachable hfds hs) (loops_of_loop ha)

/-! ### From ManagerC to ManagerA -/

lemma type_of_enqueued {s : System} (h : (program maxQueueSize fds).Reachable s) :
    ∀ e ∈ s.enqueued, e.type = .eventTypeA := by
  refine h.invariant (I := fun s => ∀ e ∈ s.enqueued, e.type = .eventTypeA) ?_ ?_
  · rintro s rfl e he
    cases he
  · intro s a t hI ha e he
    cases a with
    | run data =>
      obtain ⟨m', pc', -, rfl⟩ := runImpl_eq_some ha
      rcases List.mem_append.mp he with he | he
      · exact hI e he
      · cases hrun : s.run with
        | emplace =>
          rw [hrun, emplaced, List.mem_singleton] at he
          rw [he]
          rfl
        | _ => simp [hrun, emplaced] at he
    | main ready =>
      cases loops_of_loop ha <;> exact hI e he

lemma effect_fromC_run {s t : System} {data : ℤ} (h : s.runImpl maxQueueSize data = some t) :
    Fifo.Effect (consumed · .managerC) (consumed · .managerA) wayFromC s t := by
  obtain ⟨m', pc', hm, rfl⟩ := runImpl_eq_some h
  exact .stay rfl rfl rfl

lemma effect_fromC_loop {s t : System} (hR : s.Routed fds)
    (htype : ∀ e ∈ s.wayFromC, e.type = .eventTypeA) (h : s.Loops fds t) :
    Fifo.Effect (consumed · .managerC) (consumed · .managerA) wayFromC s t := by
  obtain ⟨-, hshaped, -⟩ := hR
  -- a step that changes nothing but where `main` is
  have hmove : ∀ main' : MainPc, main'.fromC = s.main.fromC →
      Fifo.Effect (consumed · .managerC) (consumed · .managerA) wayFromC s
        { s with main := main' } :=
    fun main' heq => .stay rfl rfl (by rw [wayFromC, wayFromC, heq])
  cases h with
  | wait ready hm => exact hmove _ (by rw [hm]; rfl)
  | leave hm => exact hmove _ (by rw [hm]; rfl)
  | own fd rest hm hfd => exact hmove _ (by rw [hm]; rfl)
  | unknown fd rest hm hfd => exact hmove _ (by rw [hm]; rfl)
  | execute fd rest p c hm hfd hp => exact hmove _ (by rw [hm]; rfl)
  | produce p c pc pc' rest m' hm hstep =>
    refine .stay rfl rfl ?_
    rw [hm] at hshaped
    rw [wayFromC, wayFromC, hm]
    rcases hshaped with ⟨rfl, rfl⟩ | ⟨rfl, rfl⟩ | ⟨rfl, rfl, -⟩
    · simp only [Function.update_self]
      exact Manager.produce_txQueue hstep
    · rfl
    · rfl
  | produced p c pc es rest m' hm hstep =>
    refine .stay rfl rfl ?_
    rw [hm] at hshaped
    rw [wayFromC, wayFromC, hm]
    rcases hshaped with ⟨-, hc⟩ | ⟨rfl, -⟩ | ⟨rfl, -, -⟩
    · cases hc
    · rfl
    · rfl
  | producedOwn p pc es rest m' hm hstep =>
    refine .stay rfl rfl ?_
    rw [hm] at hshaped
    rw [wayFromC, wayFromC, hm]
    rcases hshaped with ⟨rfl, -⟩ | ⟨-, hc⟩ | ⟨-, hc, -⟩
    · simp only [Function.update_self]
      exact Manager.produce_txQueue hstep
    · cases hc
    · cases hc
  | executed c rest hm => exact hmove _ (by rw [hm]; rfl)
  | callReceive e es rest hm => exact hmove _ (by rw [hm]; rfl)
  | consume c e es rest hm hc =>
    rw [hm] at hshaped
    exact absurd hshaped hc
  | receive pc pc' e es rest m' hm hstep =>
    refine .of_send (length_received e pc) (by simp only [Function.update_self]) rfl ?_
    simp only [wayFromC, hm, Function.update_self, Manager.receive_txQueue hstep]
    rfl
  | receivedEvent pc e es rest m' hm hstep =>
    refine .of_send (length_received e pc) (by simp only [Function.update_self]) rfl ?_
    simp only [wayFromC, hm, Function.update_self, Manager.receive_txQueue hstep]
    rfl
  | dispatched rest hm => exact hmove _ (by rw [hm]; rfl)
  | dispatch e es rest hm =>
    have he : e.type = .eventTypeA := htype e (by simp [wayFromC, hm, MainPc.fromC])
    rw [he]
    refine .receive e rfl ?_ ?_
    · simp [System.consume, dispatchTo]
    · rw [wayFromC, hm]
      rfl
  | incProduced es rest hm => exact .stay rfl rfl (by rw [wayFromC, wayFromC, hm]; rfl)

lemma type_of_consumed (hfds : Opened fds) {s : System}
    (h : (program maxQueueSize fds).Reachable s) :
    ∀ e ∈ s.consumed .managerC, e.type = .eventTypeA := by
  intro e he
  refine type_of_enqueued h e ?_
  rw [← Fifo.reachable_append (simulates_toC hfds) h]
  exact List.mem_append_left _ he

/-- From `ManagerC` to `ManagerA` the program is a channel. -/
theorem simulates_fromC (hfds : Opened fds) :
    Simulation (program maxQueueSize fds) (Fifo.machine Event) fun s f =>
      (program maxQueueSize fds).Reachable s ∧
        Fifo.View (consumed · .managerC) (consumed · .managerA) wayFromC s f := by
  refine Fifo.simulation ?_ ?_
  · rintro s rfl
    exact ⟨rfl, rfl, rfl⟩
  · intro s a t hs happ ha
    have htype : ∀ e ∈ s.wayFromC, e.type = .eventTypeA := by
      intro e he
      refine type_of_consumed hfds hs e ?_
      rw [← happ]
      exact List.mem_append_right _ he
    cases a with
    | run data => exact effect_fromC_run ha
    | main ready =>
      exact effect_fromC_loop (routed_of_reachable hfds hs) htype (loops_of_loop ha)

lemma type_of_wayFromC (hfds : Opened fds) {s : System}
    (h : (program maxQueueSize fds).Reachable s) :
    ∀ e ∈ s.wayFromC, e.type = .eventTypeA := by
  intro e he
  refine type_of_consumed hfds h e ?_
  rw [← Fifo.reachable_append (simulates_fromC hfds) h]
  exact List.mem_append_right _ he

lemma consumed_managerB (hfds : Opened fds) {s : System}
    (h : (program maxQueueSize fds).Reachable s) : s.consumed .managerB = [] := by
  refine h.invariant_of_reachable (I := fun s => s.consumed .managerB = []) ?_ ?_
  · rintro s rfl
    rfl
  · intro s a t hs hB ha
    cases a with
    | run data =>
      obtain ⟨m', pc', -, rfl⟩ := runImpl_eq_some ha
      exact hB
    | main ready =>
      cases loops_of_loop ha with
      | consume c e es rest hm hc =>
        have hshaped := (routed_of_reachable hfds hs).shaped
        rw [hm] at hshaped
        exact absurd hshaped hc
      | dispatch e es rest hm =>
        have he := type_of_wayFromC hfds hs e (by simp [wayFromC, hm, MainPc.fromC])
        rw [he]
        exact hB
      | _ => exact hB

end System

/-! ### The counters -/

/-- `_runImpl` has put an event into the queue and has not counted it. -/
def RunPc.pendingTx : RunPc → ℕ
  | incTx => 1
  | _ => 0

/-- `Consume` of `ManagerC` has put an event into the queue and has not counted it as
received. -/
def ReceivePc.pendingRx : Option ReceivePc → ℕ
  | some incRx => 1
  | _ => 0

/-- `Consume` of `ManagerC` has put an event into the queue and has not counted it as
sent. -/
def ReceivePc.pendingTx : Option ReceivePc → ℕ
  | some incRx => 1
  | some incTx => 1
  | _ => 0

namespace MainPc

/-- The call of `Consume` of `ManagerC` that `main` is in. -/
def receivePc : MainPc → Option ReceivePc
  | receive pc _ _ _ => some pc
  | _ => none

/-- An event has been dispatched and not counted. -/
def pendingProduced : MainPc → ℕ
  | incProduced _ _ => 1
  | _ => 0

/-- `main` is between two entries of the array of ready descriptors, or has none. -/
def BetweenEntries : MainPc → Prop
  | wait => True
  | entries _ => True
  | _ => False

end MainPc

/-- The thread of `ManagerA` holds `txMutex`. -/
def RunPc.Holding : RunPc → Prop
  | emplace => True
  | incTx => True
  | fire _ => True
  | unlock => True
  | _ => False

namespace Manager

variable {m m' : Manager} {e : Event}

lemma runImpl_counters {maxQueueSize : ℕ} {pc pc' : RunPc}
    (h : m.runImpl maxQueueSize e pc = some (m', pc')) :
    m'.eventRx = m.eventRx ∧
    m'.eventTx + pc'.pendingTx = m.eventTx + pc.pendingTx + (emplaced e pc).length := by
  rcases runImpl_cases h with ⟨rfl, -, rfl, rfl⟩ | ⟨rfl, -, rfl, rfl⟩ | ⟨rfl, rfl, rfl⟩ |
    ⟨rfl, rfl, rfl⟩ | ⟨rfl, rfl, rfl⟩ | ⟨rfl, rfl, rfl⟩ |
    ⟨fpc, rfl, rfl, ⟨fpc', rfl⟩ | rfl⟩ | ⟨rfl, rfl, rfl⟩ <;>
    simp [RunPc.pendingTx, emplaced]

lemma produce_counters {pc : ProducePc} {r : ProducePc ⊕ List Event}
    (h : m.produce pc = some (m', r)) :
    m'.eventRx = m.eventRx ∧ m'.eventTx = m.eventTx := by
  rcases produce_cases h with ⟨rfl, rfl, -⟩ | ⟨rfl, rfl, -⟩ |
    ⟨cpc, es, ev, cpc', rfl, -, rfl, -⟩ | ⟨es, rfl, rfl, -⟩ <;>
    exact ⟨rfl, rfl⟩

lemma receive_counters {pc : ReceivePc} {pc' : Option ReceivePc}
    (h : m.receive e pc = some (m', pc')) :
    m'.eventRx + ReceivePc.pendingRx pc' =
      m.eventRx + ReceivePc.pendingRx (some pc) + (received e pc).length ∧
    m'.eventTx + ReceivePc.pendingTx pc' =
      m.eventTx + ReceivePc.pendingTx (some pc) + (received e pc).length := by
  rcases receive_cases h with ⟨rfl, rfl, rfl⟩ | ⟨rfl, rfl, rfl⟩ | ⟨rfl, rfl, rfl⟩ |
    ⟨rfl, rfl, rfl⟩ | ⟨fpc, rfl, rfl, ⟨fpc', -, rfl⟩ | ⟨-, rfl⟩⟩ | ⟨rfl, rfl, rfl⟩ <;>
    simp [ReceivePc.pendingRx, ReceivePc.pendingTx, received]

end Manager

namespace System

variable {fds : Name → ℤ × ℤ} {maxQueueSize : ℕ}

/-- The counters follow the logs. -/
structure Counted (s : System) : Prop where
  txA : (s.managers .managerA).eventTx + s.run.pendingTx = s.enqueued.length
  rxC : (s.managers .managerC).eventRx + ReceivePc.pendingRx s.main.receivePc =
    (s.consumed .managerC).length
  txC : (s.managers .managerC).eventTx + ReceivePc.pendingTx s.main.receivePc =
    (s.consumed .managerC).length
  rxA : (s.managers .managerA).eventRx = (s.consumed .managerA).length
  rxB : (s.managers .managerB).eventRx = (s.consumed .managerB).length
  produced : s.produced + s.main.pendingProduced =
    (s.consumed .managerA).length + (s.consumed .managerB).length

lemma counted_run {s t : System} {data : ℤ} (hC : s.Counted)
    (h : s.runImpl maxQueueSize data = some t) : t.Counted := by
  obtain ⟨m', pc', hm, rfl⟩ := runImpl_eq_some h
  obtain ⟨hrx, htx⟩ := Manager.runImpl_counters hm
  obtain ⟨htxA, hrxC, htxC, hrxA, hrxB, hproduced⟩ := hC
  refine ⟨?_, hrxC, htxC, ?_, hrxB, hproduced⟩
  · simp only [Function.update_self, List.length_append]
    omega
  · simp only [Function.update_self]
    omega

lemma counted_produce {s : System} {p : Name} {m' : Manager} {main' : MainPc}
    (hC : s.Counted) (hrx : m'.eventRx = (s.managers p).eventRx)
    (htx : m'.eventTx = (s.managers p).eventTx)
    (hmain : main'.receivePc = s.main.receivePc)
    (hprod : main'.pendingProduced = s.main.pendingProduced) :
    Counted { s with managers := Function.update s.managers p m', main := main' } := by
  have hRx := update_eq Manager.eventRx hrx
  have hTx := update_eq Manager.eventTx htx
  obtain ⟨htxA, hrxC, htxC, hrxA, hrxB, hproduced⟩ := hC
  refine ⟨?_, ?_, ?_, ?_, ?_, ?_⟩
  · simp only [hTx]
    exact htxA
  · simp only [hRx, hmain]
    exact hrxC
  · simp only [hTx, hmain]
    exact htxC
  · simp only [hRx]
    exact hrxA
  · simp only [hRx]
    exact hrxB
  · simp only [hprod]
    exact hproduced

lemma counted_receive {s : System} {e : Event} {pc : ReceivePc} {pc' : Option ReceivePc}
    {m' : Manager} {main' : MainPc} (hC : s.Counted)
    (hstep : (s.managers .managerC).receive e pc = some (m', pc'))
    (hpc : s.main.receivePc = some pc) (hmain : main'.receivePc = pc')
    (hprod : main'.pendingProduced = s.main.pendingProduced) :
    Counted { s with
      managers := Function.update s.managers .managerC m'
      consumed := Function.update s.consumed .managerC
        (s.consumed .managerC ++ received e pc)
      main := main' } := by
  obtain ⟨hrx, htx⟩ := Manager.receive_counters hstep
  obtain ⟨htxA, hrxC, htxC, hrxA, hrxB, hproduced⟩ := hC
  rw [hpc] at hrxC htxC
  refine ⟨htxA, ?_, ?_, hrxA, hrxB, ?_⟩
  · simp only [Function.update_self, List.length_append, hmain]
    omega
  · simp only [Function.update_self, List.length_append, hmain]
    omega
  · simp only [hprod]
    exact hproduced

/-- The dispatch of an event is counted by its consumer. -/
lemma counted_dispatch {s : System} {e : Event} {es : List Event} {rest : List ℤ}
    (hC : s.Counted) (hm : s.main = .dispatch (e :: es) rest) :
    Counted { s.consume (dispatchTo e.type) e with main := .incProduced es rest } := by
  obtain ⟨htxA, hrxC, htxC, hrxA, hrxB, hproduced⟩ := hC
  rw [hm] at hrxC htxC hproduced
  cases e with
  | eventA dataA =>
    refine ⟨htxA, hrxC, htxC, ?_, hrxB, ?_⟩
    · simp only [System.consume, Event.type, dispatchTo, Function.update_self,
        Manager.consume, List.length_append, List.length_singleton]
      omega
    · have hB : (Name.managerB : Name) ≠ .managerA := by decide
      simp only [System.consume, Event.type, dispatchTo, Function.update_self,
        Function.update_of_ne hB, MainPc.pendingProduced, List.length_append,
        List.length_singleton] at hproduced ⊢
      omega
  | eventB dataB =>
    refine ⟨htxA, hrxC, htxC, hrxA, ?_, ?_⟩
    · simp only [System.consume, Event.type, dispatchTo, Function.update_self,
        Manager.consume, List.length_append, List.length_singleton]
      omega
    · have hA : (Name.managerA : Name) ≠ .managerB := by decide
      simp only [System.consume, Event.type, dispatchTo, Function.update_self,
        Function.update_of_ne hA, MainPc.pendingProduced, List.length_append,
        List.length_singleton] at hproduced ⊢
      omega

lemma counted_loop {s t : System} (hR : s.Routed fds) (hC : s.Counted)
    (h : s.Loops fds t) : t.Counted := by
  -- a step that changes nothing but where `main` is
  have hmove : ∀ main' : MainPc, main'.receivePc = none → main'.pendingProduced = 0 →
      s.main.receivePc = none → s.main.pendingProduced = 0 →
      Counted { s with main := main' } := by
    intro main' h₁ h₂ h₃ h₄
    obtain ⟨htxA, hrxC, htxC, hrxA, hrxB, hproduced⟩ := hC
    rw [h₃] at hrxC htxC
    rw [h₄] at hproduced
    exact ⟨htxA, by rw [h₁]; exact hrxC, by rw [h₁]; exact htxC, hrxA, hrxB,
      by rw [h₂]; exact hproduced⟩
  cases h with
  | wait ready hm => exact hmove _ rfl rfl (by rw [hm]; rfl) (by rw [hm]; rfl)
  | leave hm => exact hmove _ rfl rfl (by rw [hm]; rfl) (by rw [hm]; rfl)
  | own fd rest hm hfd => exact hmove _ rfl rfl (by rw [hm]; rfl) (by rw [hm]; rfl)
  | unknown fd rest hm hfd => exact hmove _ rfl rfl (by rw [hm]; rfl) (by rw [hm]; rfl)
  | execute fd rest p c hm hfd hp =>
    exact hmove _ rfl rfl (by rw [hm]; rfl) (by rw [hm]; rfl)
  | produce p c pc pc' rest m' hm hstep =>
    obtain ⟨hrx, htx⟩ := Manager.produce_counters hstep
    exact counted_produce hC hrx htx (by rw [hm]; rfl) (by rw [hm]; rfl)
  | produced p c pc es rest m' hm hstep =>
    obtain ⟨hrx, htx⟩ := Manager.produce_counters hstep
    exact counted_produce hC hrx htx (by rw [hm]; rfl) (by rw [hm]; rfl)
  | producedOwn p pc es rest m' hm hstep =>
    obtain ⟨hrx, htx⟩ := Manager.produce_counters hstep
    exact counted_produce hC hrx htx (by rw [hm]; rfl) (by rw [hm]; rfl)
  | executed c rest hm => exact hmove _ rfl rfl (by rw [hm]; rfl) (by rw [hm]; rfl)
  | callReceive e es rest hm =>
    obtain ⟨htxA, hrxC, htxC, hrxA, hrxB, hproduced⟩ := hC
    rw [hm] at hrxC htxC hproduced
    exact ⟨htxA, hrxC, htxC, hrxA, hrxB, hproduced⟩
  | consume c e es rest hm hc =>
    have hshaped := hR.shaped
    rw [hm] at hshaped
    exact absurd hshaped hc
  | receive pc pc' e es rest m' hm hstep =>
    exact counted_receive hC hstep (by rw [hm]; rfl) rfl (by rw [hm]; rfl)
  | receivedEvent pc e es rest m' hm hstep =>
    exact counted_receive hC hstep (by rw [hm]; rfl) rfl (by rw [hm]; rfl)
  | dispatched rest hm => exact hmove _ rfl rfl (by rw [hm]; rfl) (by rw [hm]; rfl)
  | dispatch e es rest hm => exact counted_dispatch hC hm
  | incProduced es rest hm =>
    obtain ⟨htxA, hrxC, htxC, hrxA, hrxB, hproduced⟩ := hC
    rw [hm] at hrxC htxC hproduced
    exact ⟨htxA, hrxC, htxC, hrxA, hrxB, hproduced⟩

lemma counted_of_reachable (hfds : Opened fds) {s : System}
    (h : (program maxQueueSize fds).Reachable s) : s.Counted := by
  refine h.invariant_of_reachable (I := Counted) ?_ ?_
  · rintro s rfl
    exact ⟨rfl, rfl, rfl, rfl, rfl, rfl⟩
  · intro s a t hs hC ha
    cases a with
    | run data => exact counted_run hC ha
    | main ready => exact counted_loop (routed_of_reachable hfds hs) hC (loops_of_loop ha)

end System

/-- **Conservation.**  Between two entries of the array of ready descriptors, when
`ManagerA` does not hold its mutex: every event that `ManagerA` has sent is in its queue or
has come to `ManagerC`, which has sent all of them on; these are in its queue or have come to
`ManagerA` or `ManagerB`; and the events that `ManagerA` has consumed, the queue of `ManagerC`
and the queue of `ManagerA` are together the events that `ManagerA` has enqueued, in order. -/
theorem conservation {maxQueueSize : ℕ} {fds : Name → ℤ × ℤ} (hfds : Opened fds)
    {s : System} (h : (program maxQueueSize fds).Reachable s)
    (hmain : s.main.BetweenEntries) (hrun : ¬ s.run.Holding) :
    (s.managers .managerA).eventTx =
      (s.managers .managerA).txQueue.length + (s.managers .managerC).eventRx ∧
    (s.managers .managerC).eventRx = (s.managers .managerC).eventTx ∧
    (s.managers .managerC).eventTx = (s.managers .managerC).txQueue.length +
      (s.managers .managerA).eventRx + (s.managers .managerB).eventRx ∧
    s.produced = (s.managers .managerA).eventRx + (s.managers .managerB).eventRx ∧
    s.consumed .managerA ++ (s.managers .managerC).txQueue ++
      (s.managers .managerA).txQueue = s.enqueued := by
  have hto := Fifo.reachable_append (System.simulates_toC hfds) h
  have hfrom := Fifo.reachable_append (System.simulates_fromC hfds) h
  have hB := System.consumed_managerB hfds h
  obtain ⟨htxA, hrxC, htxC, hrxA, hrxB, hproduced⟩ := System.counted_of_reachable hfds h
  have htoC : s.main.toC = [] ∧ s.main.fromC = [] ∧ s.main.receivePc = none ∧
      s.main.pendingProduced = 0 := by
    cases hm : s.main with
    | wait => exact ⟨rfl, rfl, rfl, rfl⟩
    | entries rest => exact ⟨rfl, rfl, rfl, rfl⟩
    | _ =>
      rw [hm] at hmain
      exact hmain.elim
  obtain ⟨htoC, hfromC, hreceive, hprod⟩ := htoC
  have htx : s.run.pendingTx = 0 := by
    cases hpc : s.run with
    | incTx =>
      rw [hpc] at hrun
      exact absurd trivial hrun
    | _ => rfl
  rw [System.wayToC, htoC, List.nil_append] at hto
  rw [System.wayFromC, hfromC, List.nil_append] at hfrom
  rw [hreceive] at hrxC htxC
  have hlenC := congrArg List.length hfrom
  have hlenA := congrArg List.length hto
  simp only [List.length_append] at hlenC hlenA
  simp only [ReceivePc.pendingRx] at hrxC
  simp only [ReceivePc.pendingTx] at htxC
  rw [hB, List.length_nil] at hrxB hproduced
  refine ⟨by omega, by omega, by omega, by omega, ?_⟩
  rw [hfrom, hto]

/-- Descriptors for the three pipes of `main.cpp`. -/
def sampleFds : Name → ℤ × ℤ
  | .managerA => (5, 6)
  | .managerB => (8, 9)
  | .managerC => (11, 12)

lemma opened_sampleFds : Opened sampleFds := by
  constructor
  · intro m
    cases m <;> decide
  · intro m n h
    cases m <;> cases n <;> first | rfl | exact absurd h (by decide)

/-- Two events of `ManagerA` are enqueued, and the first has been round the loop. -/
theorem conservation_two : ∃ s, (program 5000 sampleFds).Reachable s ∧
    s.consumed .managerA = [.eventA 100] ∧
    s.consumed .managerA ++ (s.managers .managerC).txQueue ++
      (s.managers .managerA).txQueue = s.enqueued ∧ s.enqueued.length = 2 := by
  have h₀ : (program 5000 sampleFds).Reachable (.start sampleFds) := .of_init rfl
  obtain ⟨s, hs, hmain, hrun, hA, hlen⟩ : ∃ s,
      (program 5000 sampleFds).exec (.start sampleFds)
        (List.replicate 8 (Action.run 100) ++ List.replicate 29 (Action.main [5, 11]) ++
          List.replicate 8 (Action.run 200)) = some s ∧
      s.main.BetweenEntries ∧ ¬ s.run.Holding ∧ s.consumed .managerA = [.eventA 100] ∧
      s.enqueued.length = 2 :=
    ⟨_, rfl, by exact trivial, by exact id, rfl, rfl⟩
  exact ⟨s, h₀.exec hs, hA,
    (conservation opened_sampleFds (h₀.exec hs) hmain hrun).2.2.2.2, hlen⟩

end EventManager.Main
