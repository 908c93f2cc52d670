import EventManager.Main.Conservation

/-!
# How long the queues of main get

`ManagerA` checks the length of its queue before it takes the mutex, and puts at most one
event into it after that.  `ManagerC` checks nothing.  Its queue is bounded by the routing
loop: while it holds an event its pipe is readable (`System.WakeInv`), so that every round
of the loop swaps it out, and in a round the queue of `ManagerA` is swapped out at most once
(`System.Budget`).  The worst round serves `ManagerA` first (`queue_bounds`).
-/

namespace EventManager.Main

open Steps

variable {fds : Name → ℤ × ℤ} {maxQueueSize : ℕ}

/-- What a level-triggered `epoll_wait` reports: no descriptor twice, and every readable one
that is registered. -/
structure LevelTriggered (fds : Name → ℤ × ℤ) (s : System) (ready : List ℤ) : Prop where
  nodup : ready.Nodup
  reports : ∀ m, (s.managers m).txEvent.getSource ∈ (poller fds).interest →
    (s.managers m).txEvent.Readable → (s.managers m).txEvent.getSource ∈ ready

/-- When the step is a return of `epoll_wait`, it returns what it reports in that state. -/
def EpollStep (fds : Name → ℤ × ℤ) (s : System) (a : Action) : Prop :=
  ∀ ready, a = .main ready → s.main = .wait → LevelTriggered fds s ready

instance (s : System) (ready : List ℤ) : Decidable (LevelTriggered fds s ready) :=
  decidable_of_iff (ready.Nodup ∧ ∀ m ∈ [Name.managerA, .managerB, .managerC],
      (s.managers m).txEvent.getSource ∈ (poller fds).interest →
        (s.managers m).txEvent.Readable → (s.managers m).txEvent.getSource ∈ ready)
    ⟨fun h => ⟨h.1, fun m => h.2 m (by cases m <;> decide)⟩,
      fun h => ⟨h.nodup, fun m _ => h.reports m⟩⟩

instance (s : System) : (a : Action) → Decidable (EpollStep fds s a)
  | .run _ => isTrue fun _ h => by cases h
  | .main ready => decidable_of_iff (s.main = .wait → LevelTriggered fds s ready)
    ⟨fun h _ heq => by cases heq; exact h, fun h => h ready rfl⟩

/-! ### The queue of ManagerA -/

lemma Manager.produce_length {m m' : Manager} {pc : ProducePc} {r : ProducePc ⊕ List Event}
    (h : m.produce pc = some (m', r)) : m'.txQueue.length ≤ m.txQueue.length := by
  rcases produce_cases h with ⟨rfl, rfl, -⟩ | ⟨rfl, rfl, -⟩ |
    ⟨cpc, es, ev, cpc', rfl, -, rfl, -⟩ | ⟨es, rfl, rfl, -⟩ <;>
    simp

lemma Manager.produce_returns {m m' : Manager} {pc : ProducePc} {es : List Event}
    (h : m.produce pc = some (m', .inr es)) : pc = .unlock es ∧ m'.txQueue = m.txQueue := by
  cases pc with
  | lock =>
    simp only [produce] at h
    split at h <;> cases h
  | swap => cases h
  | consume cpc events =>
    obtain ⟨p, -, hp⟩ := Option.map_eq_some_iff.mp h
    cases hp
  | unlock events =>
    cases h
    exact ⟨rfl, rfl⟩

namespace System

/-- The queue of `ManagerA` holds one event more than its check allows, at most, and none
more between the check and the push. -/
structure QueueA (maxQueueSize : ℕ) (s : System) : Prop where
  le : (s.managers .managerA).txQueue.length ≤ maxQueueSize + 1
  checked : s.run = .lock ∨ s.run = .emplace →
    (s.managers .managerA).txQueue.length ≤ maxQueueSize

lemma queueA_run {s t : System} {data : ℤ} (hQ : s.QueueA maxQueueSize)
    (h : s.runImpl maxQueueSize data = some t) : t.QueueA maxQueueSize := by
  obtain ⟨hle, hchecked⟩ := hQ
  obtain ⟨m', pc', hm, rfl⟩ := runImpl_eq_some h
  rcases Manager.runImpl_cases hm with ⟨hpc, -, rfl, rfl⟩ | ⟨hpc, hlen, rfl, rfl⟩ |
    ⟨hpc, rfl, rfl⟩ | ⟨hpc, rfl, rfl⟩ | ⟨hpc, rfl, rfl⟩ | ⟨hpc, rfl, rfl⟩ |
    ⟨fpc, hpc, rfl, ⟨fpc', rfl⟩ | rfl⟩ | ⟨hpc, rfl, rfl⟩
  · exact ⟨by simpa using hle, by simp⟩
  · exact ⟨by simpa using hle, fun _ => by simpa using hlen⟩
  · exact ⟨by simpa using hle, by simp⟩
  · exact ⟨by simpa using hle, fun _ => by simpa using hchecked (Or.inl hpc)⟩
  · -- the push: the check was passed, and nobody else pushes
    have hlen := hchecked (Or.inr hpc)
    refine ⟨?_, by simp⟩
    simp only [Function.update_self, List.length_append, List.length_singleton]
    omega
  · exact ⟨by simpa using hle, by simp⟩
  · exact ⟨by simpa using hle, by simp⟩
  · exact ⟨by simpa using hle, by simp⟩
  · exact ⟨by simpa using hle, by simp⟩

/-- A step of `main` that leaves the thread of `ManagerA` where it is and adds nothing to its
queue. -/
lemma queueA_of_le {s t : System} (hQ : s.QueueA maxQueueSize) (hrun : t.run = s.run)
    (hlen : (t.managers .managerA).txQueue.length ≤
      (s.managers .managerA).txQueue.length) : t.QueueA maxQueueSize := by
  refine ⟨hlen.trans hQ.le, ?_⟩
  rw [hrun]
  exact fun hpc => hlen.trans (hQ.checked hpc)

lemma length_queueA_loop {s t : System} (h : s.Loops fds t) :
    (t.managers .managerA).txQueue.length ≤ (s.managers .managerA).txQueue.length := by
  have hproduce : ∀ p m' pc r, (s.managers p).produce pc = some (m', r) →
      (Function.update s.managers p m' .managerA).txQueue.length ≤
        (s.managers .managerA).txQueue.length := by
    intro p m' pc r hstep
    by_cases hp : p = .managerA
    · subst hp
      rw [Function.update_self]
      exact Manager.produce_length hstep
    · rw [Function.update_of_ne (Ne.symm hp)]
  cases h with
  | produce p c pc pc' rest m' hm hstep => exact hproduce p m' pc _ hstep
  | produced p c pc es rest m' hm hstep => exact hproduce p m' pc _ hstep
  | producedOwn p pc es rest m' hm hstep => exact hproduce p m' pc _ hstep
  | consume c e es rest hm hc =>
    exact (congrArg List.length (consume_eq Manager.txQueue (fun _ => rfl) s c e _)).le
  | dispatch e es rest hm =>
    exact (congrArg List.length (consume_eq Manager.txQueue (fun _ => rfl) s _ e _)).le
  | _ => exact le_rfl

lemma run_loop {s t : System} (h : s.Loops fds t) : t.run = s.run := by
  cases h <;> rfl

end System

/-! ### The pipe of ManagerC -/

namespace MainPc

/-- The call of `Fire` of the event of `ManagerC` that `main` is in. -/
def firePc : MainPc → Option FirePc
  | receive pc _ _ _ => pc.firePc
  | _ => none

/-- The call of `Consume` of the event of `ManagerC` that `main` is in. -/
def consumePc : MainPc → Option ConsumePc
  | produce .managerC _ pc _ => pc.consumePc
  | _ => none

/-- `main` has put an event into the queue of `ManagerC`, and the `Fire` for it has not
returned. -/
def Signalling : MainPc → Prop
  | receive .incRx _ _ _ => True
  | receive .incTx _ _ _ => True
  | receive (.fire _) _ _ _ => True
  | _ => False

/-- `main` has swapped out the queue of `ManagerC` and is still in `Produce`. -/
def Drained : MainPc → Prop
  | produce .managerC _ (.consume _ _) _ => True
  | produce .managerC _ (.unlock _) _ => True
  | _ => False

/-- `main` uses neither the queue nor the event of `ManagerC`. -/
structure AwayFromC (main : MainPc) : Prop where
  firePc : main.firePc = none
  consumePc : main.consumePc = none
  signalling : ¬ main.Signalling
  drained : ¬ main.Drained

namespace AwayFromC

lemma wait : AwayFromC .wait := ⟨rfl, rfl, id, id⟩

lemma entries (rest : List ℤ) : AwayFromC (.entries rest) := ⟨rfl, rfl, id, id⟩

lemma call (p : Name) (c : Option Name) (rest : List ℤ) :
    AwayFromC (.produce p c .lock rest) := by
  cases p <;> exact ⟨rfl, rfl, id, id⟩

lemma produce {p : Name} (hp : p ≠ .managerC) (c : Option Name) (pc : ProducePc)
    (rest : List ℤ) : AwayFromC (.produce p c pc rest) := by
  cases p with
  | managerA => exact ⟨rfl, rfl, id, id⟩
  | managerB => exact ⟨rfl, rfl, id, id⟩
  | managerC => exact absurd rfl hp

lemma execute (c : Name) (es : List Event) (rest : List ℤ) :
    AwayFromC (.execute c es rest) := ⟨rfl, rfl, id, id⟩

lemma callReceive (e : Event) (es : List Event) (rest : List ℤ) :
    AwayFromC (.receive .lock e es rest) := ⟨rfl, rfl, id, id⟩

lemma dispatch (es : List Event) (rest : List ℤ) : AwayFromC (.dispatch es rest) :=
  ⟨rfl, rfl, id, id⟩

lemma incProduced (es : List Event) (rest : List ℤ) : AwayFromC (.incProduced es rest) :=
  ⟨rfl, rfl, id, id⟩

end AwayFromC

end MainPc

namespace System

/-- The event of `ManagerC` keeps its invariant, and while the queue holds an event, it is
about to be signalled or the flag is set. -/
structure WakeInv (s : System) : Prop where
  signal : (s.managers .managerC).txEvent.SignalInv s.main.firePc s.main.consumePc
  wake : (s.managers .managerC).txQueue ≠ [] →
    s.main.Signalling ∨ (s.managers .managerC).txEvent.fired = true
  drained : s.main.Drained → (s.managers .managerC).txQueue = []

/-- A step that keeps `ManagerC`, between two places where `main` does not use it. -/
lemma wakeInv_of_away {s t : System} (hW : s.WakeInv)
    (hC : t.managers .managerC = s.managers .managerC) (hs : s.main.AwayFromC)
    (ht : t.main.AwayFromC) : t.WakeInv := by
  obtain ⟨hsignal, hwake, -⟩ := hW
  rw [hs.firePc, hs.consumePc] at hsignal
  refine ⟨?_, ?_, fun hd => absurd hd ht.drained⟩
  · rw [hC, ht.firePc, ht.consumePc]
    exact hsignal
  · rw [hC]
    exact fun hne => Or.inr ((hwake hne).resolve_left hs.signalling)

lemma wakeInv_produce {s : System} {c : Option Name} {pc : ProducePc} {rest : List ℤ}
    {m' : Manager} {r : ProducePc ⊕ List Event} {main' : MainPc} (hW : s.WakeInv)
    (hm : s.main = .produce .managerC c pc rest)
    (hstep : (s.managers .managerC).produce pc = some (m', r))
    (hnext : ∀ pc', r = .inl pc' → main' = .produce .managerC c pc' rest)
    (hend : ∀ es, r = .inr es → main'.AwayFromC) :
    WakeInv { s with
      managers := Function.update s.managers .managerC m', main := main' } := by
  obtain ⟨hsignal, hwake, hdrained⟩ := hW
  rw [hm] at hsignal hwake hdrained
  rcases Manager.produce_cases hstep with ⟨rfl, rfl, rfl⟩ | ⟨rfl, rfl, rfl⟩ |
    ⟨cpc, es, ev, cpc', rfl, hc, rfl, ⟨cpc'', rfl, rfl⟩ | ⟨rfl, rfl⟩⟩ | ⟨es, rfl, rfl, rfl⟩
  · obtain rfl := hnext _ rfl
    exact ⟨hsignal, fun hne => Or.inr ((hwake hne).resolve_left id),
      fun hd => hd.elim⟩
  · -- the swap: the queue is empty until `Produce` returns
    obtain rfl := hnext _ rfl
    exact ⟨hsignal.callConsume, fun hne => absurd rfl hne, fun _ => rfl⟩
  · obtain rfl := hnext _ rfl
    have hnil := hdrained trivial
    exact ⟨hsignal.consume hc, fun hne => absurd hnil hne,
      fun _ => hnil⟩
  · obtain rfl := hnext _ rfl
    have hnil := hdrained trivial
    exact ⟨hsignal.consume hc, fun hne => absurd hnil hne,
      fun _ => hnil⟩
  · have haway := hend _ rfl
    have hnil := hdrained trivial
    refine ⟨?_, fun hne => absurd hnil hne, fun hd => absurd hd haway.drained⟩
    rw [haway.firePc, haway.consumePc]
    exact hsignal

lemma wakeInv_receive {s : System} {pc : ReceivePc} {e : Event} {es : List Event}
    {rest : List ℤ} {m' : Manager} {pc' : Option ReceivePc} {main' : MainPc}
    {consumed : Name → List Event} (hW : s.WakeInv) (hm : s.main = .receive pc e es rest)
    (hstep : (s.managers .managerC).receive e pc = some (m', pc'))
    (hnext : ∀ pc'', pc' = some pc'' → main' = .receive pc'' e es rest)
    (hend : pc' = none → main'.AwayFromC) :
    WakeInv { s with
      managers := Function.update s.managers .managerC m', consumed := consumed
      main := main' } := by
  obtain ⟨hsignal, hwake, hdrained⟩ := hW
  rw [hm] at hsignal hwake hdrained
  rcases Manager.receive_cases hstep with ⟨rfl, rfl, rfl⟩ | ⟨rfl, rfl, rfl⟩ |
    ⟨rfl, rfl, rfl⟩ | ⟨rfl, rfl, rfl⟩ |
    ⟨fpc, rfl, rfl, ⟨fpc', hf, rfl⟩ | ⟨hf, rfl⟩⟩ | ⟨rfl, rfl, rfl⟩
  · obtain rfl := hnext _ rfl
    exact ⟨hsignal, fun hne => Or.inr ((hwake hne).resolve_left id),
      fun hd => hd.elim⟩
  · obtain rfl := hnext _ rfl
    exact ⟨hsignal, fun _ => Or.inl trivial, fun hd => hd.elim⟩
  · obtain rfl := hnext _ rfl
    exact ⟨hsignal, fun _ => Or.inl trivial, fun hd => hd.elim⟩
  · obtain rfl := hnext _ rfl
    exact ⟨hsignal.callFire, fun _ => Or.inl trivial, fun hd => hd.elim⟩
  · obtain rfl := hnext _ rfl
    have hfire := hsignal.fire
    rw [hf] at hfire
    exact ⟨hfire, fun _ => Or.inl trivial, fun hd => hd.elim⟩
  · -- `Fire` returns with the flag set
    obtain rfl := hnext _ rfl
    have hfire := hsignal.fire
    rw [hf] at hfire
    refine ⟨hfire, fun _ => Or.inr ?_, fun hd => hd.elim⟩
    exact hsignal.fired_of_fire hf
  · have haway := hend rfl
    refine ⟨?_, fun hne => Or.inr ((hwake hne).resolve_left id),
      fun hd => absurd hd haway.drained⟩
    rw [haway.firePc, haway.consumePc]
    exact hsignal

lemma wakeInv_run {s t : System} {data : ℤ} (hW : s.WakeInv)
    (h : s.runImpl maxQueueSize data = some t) : t.WakeInv := by
  obtain ⟨m', pc', -, rfl⟩ := runImpl_eq_some h
  exact ⟨hW.signal, hW.wake, hW.drained⟩

lemma wakeInv_loop {s t : System} (hR : s.Routed fds) (hW : s.WakeInv)
    (h : s.Loops fds t) : t.WakeInv := by
  have hshaped := hR.shaped
  cases h with
  | wait ready hm => exact wakeInv_of_away hW rfl (hm ▸ .wait) (.entries ready)
  | leave hm => exact wakeInv_of_away hW rfl (hm ▸ .entries []) .wait
  | own fd rest hm hfd =>
    exact wakeInv_of_away hW rfl (hm ▸ .entries _) (.call .managerC none rest)
  | unknown fd rest hm hfd => exact wakeInv_of_away hW rfl (hm ▸ .entries _) (.entries rest)
  | execute fd rest p c hm hfd hp =>
    exact wakeInv_of_away hW rfl (hm ▸ .entries _) (.call p (some c) rest)
  | produce p c pc pc' rest m' hm hstep =>
    by_cases hp : p = .managerC
    · subst hp
      refine wakeInv_produce hW hm hstep ?_ ?_
      · intro pc'' heq
        cases heq
        rfl
      · intro es heq
        cases heq
    · refine wakeInv_of_away hW ?_ (hm ▸ .produce hp c pc rest) (.produce hp c pc' rest)
      exact Function.update_of_ne (Ne.symm hp) _ _
  | produced p c pc es rest m' hm hstep =>
    rw [hm] at hshaped
    have hp : p ≠ .managerC := by
      rintro rfl
      rcases hshaped with ⟨-, hc⟩ | ⟨hA, -⟩ | ⟨hB, -⟩
      · cases hc
      · cases hA
      · cases hB
    refine wakeInv_of_away hW ?_ (hm ▸ .produce hp _ pc rest) (.execute c es rest)
    exact Function.update_of_ne (Ne.symm hp) _ _
  | producedOwn p pc es rest m' hm hstep =>
    rw [hm] at hshaped
    obtain rfl : p = .managerC := by
      rcases hshaped with ⟨hC, -⟩ | ⟨-, hc⟩ | ⟨-, hc, -⟩
      · exact hC
      · cases hc
      · cases hc
    refine wakeInv_produce hW hm hstep ?_ ?_
    · intro pc' heq
      cases heq
    · intro es' heq
      exact .dispatch es rest
  | executed c rest hm => exact wakeInv_of_away hW rfl (hm ▸ .execute c [] rest) (.entries rest)
  | callReceive e es rest hm =>
    exact wakeInv_of_away hW rfl (hm ▸ .execute _ _ rest) (.callReceive e es rest)
  | consume c e es rest hm hc =>
    rw [hm] at hshaped
    exact absurd hshaped hc
  | receive pc pc' e es rest m' hm hstep =>
    refine wakeInv_receive hW hm hstep ?_ ?_
    · intro pc'' heq
      cases heq
      rfl
    · intro heq
      cases heq
  | receivedEvent pc e es rest m' hm hstep =>
    refine wakeInv_receive hW hm hstep ?_ ?_
    · intro pc' heq
      cases heq
    · intro _
      exact .execute .managerC es rest
  | dispatched rest hm => exact wakeInv_of_away hW rfl (hm ▸ .dispatch [] rest) (.entries rest)
  | dispatch e es rest hm =>
    refine wakeInv_of_away hW ?_ (hm ▸ .dispatch _ rest) (.incProduced es rest)
    cases e <;> rfl
  | incProduced es rest hm =>
    exact wakeInv_of_away hW rfl (hm ▸ .incProduced es rest) (.dispatch es rest)

lemma wakeInv_start (hfds : Opened fds) : (start fds).WakeInv := by
  refine ⟨.create ?_, fun hne => absurd rfl hne, fun hd => hd.elim⟩
  have hpos := hfds.pos .managerC
  omega

/-- Where `main` waits, the pipe of `ManagerC` is readable if its queue holds an event. -/
lemma WakeInv.readable {s : System} (hW : s.WakeInv) (hm : s.main = .wait)
    (hq : (s.managers .managerC).txQueue ≠ []) :
    (s.managers .managerC).txEvent.Readable := by
  obtain ⟨hsignal, hwake, -⟩ := hW
  rw [hm] at hsignal hwake
  exact hsignal.readable (by simp [MainPc.firePc]) (by simp [MainPc.consumePc])
    ((hwake hq).resolve_left id)

end System

/-! ### The rounds of the loop -/

namespace MainPc

/-- The ready descriptors that `main` has still to look at. -/
def rest : MainPc → List ℤ
  | wait => []
  | entries rest => rest
  | produce _ _ _ rest => rest
  | execute _ _ rest => rest
  | receive _ _ _ rest => rest
  | dispatch _ rest => rest
  | incProduced _ rest => rest

/-- `main` is in `Produce` of the manager `p`, before the swap. -/
def calling (p : Name) : MainPc → ℕ
  | produce q _ .lock _ => if q = p then 1 else 0
  | produce q _ .swap _ => if q = p then 1 else 0
  | _ => 0

/-- How often the queue of the manager `p` will be swapped out before `main` waits again. -/
def visits (fds : Name → ℤ × ℤ) (p : Name) (main : MainPc) : ℕ :=
  main.rest.count (fds p).1 + main.calling p

lemma visits_call (hfds : Opened fds) (p q : Name) (c : Option Name) (rest : List ℤ) :
    visits fds p (.produce q c .lock rest) = visits fds p (.entries ((fds q).1 :: rest)) := by
  simp only [visits, MainPc.rest, calling, List.count_cons]
  by_cases hqp : q = p
  · subst hqp
    simp
  · have hfd : (fds q).1 ≠ (fds p).1 := fun h => hqp (hfds.injective h)
    simp [hqp, hfd]

end MainPc

namespace System

/-- What the queue of `ManagerC` may still grow by in this round: `ManagerA` is served at
most once before `main` waits again, and `ManagerC` too, unless it is served no more. -/
structure Budget (maxQueueSize : ℕ) (fds : Name → ℤ × ℤ) (s : System) : Prop where
  visits : ∀ p, s.main.visits fds p ≤ 1
  budget : (s.managers .managerC).txQueue.length + s.main.toC.length +
      s.main.visits fds .managerA * (maxQueueSize + 1) ≤
    (1 + s.main.visits fds .managerC) * (maxQueueSize + 1)

/-- A step that does not change how often the queues will be swapped out, and adds nothing
for `ManagerC`. -/
lemma budget_of_le {s t : System} (hB : s.Budget maxQueueSize fds)
    (hvisits : ∀ p, t.main.visits fds p ≤ s.main.visits fds p)
    (hC : t.main.visits fds .managerC = s.main.visits fds .managerC)
    (hlen : (t.managers .managerC).txQueue.length + t.main.toC.length ≤
      (s.managers .managerC).txQueue.length + s.main.toC.length) :
    t.Budget maxQueueSize fds := by
  refine ⟨fun p => (hvisits p).trans (hB.visits p), ?_⟩
  have hA := Nat.mul_le_mul_right (maxQueueSize + 1) (hvisits .managerA)
  have hbudget := hB.budget
  rw [hC]
  omega

/-- `epoll_wait` returns: `ManagerC` is in the list if its queue holds an event. -/
lemma budget_wait (hfds : Opened fds) {s : System} {ready : List ℤ} (hR : s.Routed fds)
    (hW : s.WakeInv) (hB : s.Budget maxQueueSize fds) (hm : s.main = .wait)
    (hepoll : LevelTriggered fds s ready) :
    Budget maxQueueSize fds { s with main := .entries ready } := by
  have hcount : ∀ p, ready.count (fds p).1 ≤ 1 := fun p =>
    List.nodup_iff_count_le_one.mp hepoll.nodup _
  have hvisits : ∀ p, MainPc.visits fds p (.entries ready) = ready.count (fds p).1 :=
    fun p => rfl
  have hbudget := hB.budget
  rw [hm] at hbudget
  have hA := hcount .managerA
  have hC := hcount .managerC
  refine ⟨fun p => by rw [hvisits]; exact hcount p, ?_⟩
  simp only [MainPc.toC, MainPc.visits, MainPc.rest, MainPc.calling,
    List.count_nil, List.length_nil, Nat.add_zero, Nat.zero_mul, Nat.one_mul] at hbudget ⊢
  by_cases hq : (s.managers .managerC).txQueue = []
  · rw [hq, List.length_nil]
    have hle := Nat.mul_le_mul_right (maxQueueSize + 1) hA
    have hge := Nat.mul_le_mul_right (maxQueueSize + 1) (Nat.le_add_right 1
      (ready.count (fds .managerC).1))
    omega
  · -- the pipe is readable, so that the descriptor is reported
    have hmem : (fds .managerC).1 ∈ ready := by
      have hsource : (s.managers .managerC).txEvent.getSource = (fds .managerC).1 :=
        congrArg Prod.fst (hR.source .managerC)
      rw [← hsource]
      refine hepoll.reports .managerC ?_ (hW.readable hm hq)
      rw [hsource]
      exact mem_interest hfds .managerC
    have hone : ready.count (fds .managerC).1 = 1 := by
      have hpos := List.count_pos_iff.mpr hmem
      omega
    have hle := Nat.mul_le_mul_right (maxQueueSize + 1) hA
    rw [hone]
    omega

/-- The swap of the queue of the manager `p` is one of its visits. -/
lemma budget_swap {s : System} {p : Name} {c : Option Name} {rest : List ℤ}
    (hR : s.Routed fds) (hQ : s.QueueA maxQueueSize) (hB : s.Budget maxQueueSize fds)
    (hm : s.main = .produce p c .swap rest) :
    Budget maxQueueSize fds { s with
      managers := Function.update s.managers p { s.managers p with txQueue := [] }
      main := .produce p c (.consume .load (s.managers p).txQueue) rest } := by
  have hshaped := hR.shaped
  rw [hm] at hshaped
  obtain ⟨hvisits, hbudget⟩ := hB
  have hA := hvisits .managerA
  rw [hm] at hvisits hbudget hA
  refine ⟨fun q => (Nat.le_add_right _ _).trans (hvisits q), ?_⟩
  rcases hshaped with ⟨rfl, rfl⟩ | ⟨rfl, rfl⟩ | ⟨rfl, rfl, -⟩
  · -- the queue of `ManagerC` is empty now, and `ManagerA` can fill it once
    simp only [Function.update_self, MainPc.toC, MainPc.visits, MainPc.rest, MainPc.calling,
      List.length_nil, reduceCtorEq, if_false, Nat.add_zero, Nat.zero_add] at hA ⊢
    exact Nat.mul_le_mul_right _ (hA.trans (Nat.le_add_right _ _))
  · -- the events of `ManagerA` are on the way to `ManagerC`
    have hle := hQ.le
    have hC : (Name.managerC : Name) ≠ .managerA := by decide
    have hvisit := Nat.add_one_mul (rest.count (fds .managerA).1) (maxQueueSize + 1)
    simp only [Function.update_of_ne hC, MainPc.toC, ProducePc.events, MainPc.visits,
      MainPc.rest, MainPc.calling, List.length_nil, reduceCtorEq, if_true, if_false,
      Nat.add_zero] at hbudget ⊢
    omega
  · have hC : (Name.managerC : Name) ≠ .managerB := by decide
    have hnil : (s.managers .managerB).txQueue = [] := hR.idle
    simp only [Function.update_of_ne hC, hnil, MainPc.toC, ProducePc.events, MainPc.visits,
      MainPc.rest, MainPc.calling, List.length_nil, reduceCtorEq, if_false,
      Nat.add_zero] at hbudget ⊢
    exact hbudget

lemma budget_produce {s : System} {p : Name} {c : Option Name} {pc pc' : ProducePc}
    {rest : List ℤ} {m' : Manager} (hR : s.Routed fds) (hQ : s.QueueA maxQueueSize)
    (hB : s.Budget maxQueueSize fds) (hm : s.main = .produce p c pc rest)
    (hstep : (s.managers p).produce pc = some (m', .inl pc')) :
    Budget maxQueueSize fds { s with
      managers := Function.update s.managers p m', main := .produce p c pc' rest } := by
  have hkeep : m'.txQueue = (s.managers p).txQueue → pc'.events = pc.events →
      (∀ q, MainPc.calling q (.produce p c pc' rest) =
        MainPc.calling q (.produce p c pc rest)) →
      Budget maxQueueSize fds { s with
        managers := Function.update s.managers p m', main := .produce p c pc' rest } := by
    intro hqueue hevents hcalling
    have hvisits : ∀ q, MainPc.visits fds q (.produce p c pc' rest) =
        s.main.visits fds q := by
      intro q
      rw [hm]
      simp only [MainPc.visits, MainPc.rest, hcalling q]
    have htoC : MainPc.toC (.produce p c pc' rest) = s.main.toC := by
      rw [hm]
      cases c with
      | none => rfl
      | some c => exact hevents
    refine budget_of_le hB (fun q => (hvisits q).le) (hvisits _) ?_
    simp only [htoC, update_eq Manager.txQueue hqueue]
    exact le_rfl
  rcases Manager.produce_cases hstep with ⟨rfl, rfl, hr⟩ | ⟨rfl, rfl, hr⟩ |
    ⟨cpc, es, ev, cpc', rfl, -, rfl, ⟨cpc'', -, hr⟩ | ⟨-, hr⟩⟩ | ⟨es, -, -, hr⟩
  · cases hr
    exact hkeep rfl rfl fun q => rfl
  · cases hr
    exact budget_swap hR hQ hB hm
  · cases hr
    exact hkeep rfl rfl fun q => rfl
  · cases hr
    exact hkeep rfl rfl fun q => rfl
  · cases hr

/-- A step of `Consume` of `ManagerC` at most moves the event into the queue. -/
lemma budget_receive {s : System} {pc : ReceivePc} {e : Event} {es : List Event}
    {rest : List ℤ} {m' : Manager} {pc' : Option ReceivePc} {main' : MainPc}
    {consumed : Name → List Event} (hB : s.Budget maxQueueSize fds)
    (hm : s.main = .receive pc e es rest)
    (hstep : (s.managers .managerC).receive e pc = some (m', pc'))
    (hvisits : ∀ p, main'.visits fds p = rest.count (fds p).1)
    (htoC : main'.toC = pc'.elim [] (ReceivePc.pending e) ++ es) :
    Budget maxQueueSize fds { s with
      managers := Function.update s.managers .managerC m', consumed := consumed
      main := main' } := by
  have hsame : ∀ p, main'.visits fds p = s.main.visits fds p := by
    intro p
    rw [hvisits, hm]
    rfl
  refine budget_of_le hB (fun p => (hsame p).le) (hsame _) ?_
  have hqueue := congrArg List.length (Manager.receive_txQueue hstep)
  have hpending := congrArg List.length (Manager.receive_pending hstep)
  have htoC' : s.main.toC = pc.pending e ++ es := by
    rw [hm]
    rfl
  simp only [Function.update_self, htoC, htoC', List.length_append] at hqueue hpending ⊢
  omega

lemma budget_return {s : System} {p : Name} {m' : Manager} {main' : MainPc}
    (hB : s.Budget maxQueueSize fds) (hqueue : m'.txQueue = (s.managers p).txQueue)
    (hvisits : ∀ q, main'.visits fds q = s.main.visits fds q)
    (htoC : main'.toC = s.main.toC) :
    { s with managers := Function.update s.managers p m', main := main' }.Budget
      maxQueueSize fds := by
  refine budget_of_le hB (fun q => (hvisits q).le) (hvisits _) ?_
  rw [htoC]
  exact Nat.add_le_add_right
    (congrArg List.length (update_eq Manager.txQueue hqueue .managerC)).le _

lemma budget_loop (hfds : Opened fds) {s t : System} (hR : s.Routed fds)
    (hQ : s.QueueA maxQueueSize) (hB : s.Budget maxQueueSize fds) (hwait : s.main ≠ .wait)
    (h : s.Loops fds t) : t.Budget maxQueueSize fds := by
  -- a step that changes nothing but where `main` is
  have hmove : ∀ main' : MainPc,
      (∀ p, main'.visits fds p = s.main.visits fds p) →
      main'.toC.length ≤ s.main.toC.length →
      Budget maxQueueSize fds { s with main := main' } := by
    intro main' hvisits hle
    exact budget_of_le hB (fun p => (hvisits p).le) (hvisits _)
      (Nat.add_le_add_left hle _)
  have hshaped := hR.shaped
  have hC : (s.managers .managerC).txEvent.fds.1 = (fds .managerC).1 :=
    congrArg Prod.fst (hR.source .managerC)
  cases h with
  | wait ready hm => exact absurd hm hwait
  | leave hm => exact hmove _ (fun p => by rw [hm]; rfl) (by rw [hm]; exact le_rfl)
  | own fd rest hm hfd =>
    refine hmove _ (fun p => ?_) (by rw [hm]; exact le_rfl)
    rw [hm, hfd, hC]
    exact MainPc.visits_call hfds p .managerC none rest
  | unknown fd rest hm hfd =>
    rw [hC] at hfd
    refine budget_of_le hB (fun p => ?_) ?_ (by rw [hm]; exact le_rfl)
    · rw [hm]
      exact List.count_le_count_cons
    · rw [hm]
      simp only [MainPc.visits, MainPc.rest, MainPc.calling, List.count_cons_of_ne hfd]
  | execute fd rest p c hm hfd hp =>
    obtain ⟨rfl, -, -⟩ := watchers_eq_some hfds hp
    refine hmove _ (fun q => ?_) (by rw [hm]; exact le_rfl)
    rw [hm]
    exact MainPc.visits_call hfds q p (some c) rest
  | produce p c pc pc' rest m' hm hstep => exact budget_produce hR hQ hB hm hstep
  | produced p c pc es rest m' hm hstep =>
    obtain ⟨rfl, hqueue⟩ := Manager.produce_returns hstep
    exact budget_return hB hqueue (fun q => by rw [hm]; rfl) (by rw [hm]; rfl)
  | producedOwn p pc es rest m' hm hstep =>
    obtain ⟨rfl, hqueue⟩ := Manager.produce_returns hstep
    exact budget_return hB hqueue (fun q => by rw [hm]; rfl) (by rw [hm]; rfl)
  | executed c rest hm => exact hmove _ (fun p => by rw [hm]; rfl) (by rw [hm]; exact le_rfl)
  | callReceive e es rest hm =>
    exact hmove _ (fun p => by rw [hm]; rfl) (by rw [hm]; exact le_rfl)
  | consume c e es rest hm hc =>
    rw [hm] at hshaped
    exact absurd hshaped hc
  | receive pc pc' e es rest m' hm hstep =>
    exact budget_receive hB hm hstep (fun p => rfl) rfl
  | receivedEvent pc e es rest m' hm hstep =>
    exact budget_receive hB hm hstep (fun p => rfl) rfl
  | dispatched rest hm => exact hmove _ (fun p => by rw [hm]; rfl) (by rw [hm]; exact le_rfl)
  | dispatch e es rest hm =>
    refine budget_of_le hB (fun p => by rw [hm]; exact le_rfl) (by rw [hm]; rfl) ?_
    rw [hm]
    exact (congrArg List.length (consume_eq Manager.txQueue (fun _ => rfl) s _ e _)).le
  | incProduced es rest hm =>
    exact budget_of_le hB (fun p => by rw [hm]; exact le_rfl) (by rw [hm]; rfl)
      (by rw [hm]; exact le_rfl)

lemma budget_run {s t : System} {data : ℤ} (hB : s.Budget maxQueueSize fds)
    (h : s.runImpl maxQueueSize data = some t) : t.Budget maxQueueSize fds := by
  obtain ⟨m', pc', -, rfl⟩ := runImpl_eq_some h
  exact ⟨hB.visits, hB.budget⟩

lemma budget_start : (start fds).Budget maxQueueSize fds :=
  ⟨fun _ => Nat.zero_le _, by simp [start, Manager.create, MainPc.toC, MainPc.visits,
    MainPc.rest, MainPc.calling]⟩

/-! ### All together -/

/-- What bounds the queues. -/
structure Bounded (maxQueueSize : ℕ) (fds : Name → ℤ × ℤ) (s : System) : Prop where
  routed : s.Routed fds
  queueA : s.QueueA maxQueueSize
  wakeInv : s.WakeInv
  budget : s.Budget maxQueueSize fds

lemma bounded_start (hfds : Opened fds) : (start fds).Bounded maxQueueSize fds where
  routed := routed_start
  queueA := ⟨Nat.zero_le _, fun _ => Nat.zero_le _⟩
  wakeInv := wakeInv_start hfds
  budget := budget_start

lemma bounded_step (hfds : Opened fds) {s t : System} {a : Action}
    (hI : s.Bounded maxQueueSize fds) (hepoll : EpollStep fds s a)
    (h : (program maxQueueSize fds).next s a = some t) : t.Bounded maxQueueSize fds := by
  obtain ⟨hR, hQ, hW, hB⟩ := hI
  cases a with
  | run data => exact ⟨routed_run hR h, queueA_run hQ h, wakeInv_run hW h, budget_run hB h⟩
  | main ready =>
    have hloop := loops_of_loop h
    refine ⟨routed_loop hfds hR hloop, ?_, wakeInv_loop hR hW hloop, ?_⟩
    · exact queueA_of_le hQ (run_loop hloop) (length_queueA_loop hloop)
    · by_cases hm : s.main = .wait
      · -- the list of ready descriptors is the one that epoll returns in `s`
        have ht : s.loop fds ready = some t := h
        rw [loop, hm] at ht
        obtain ⟨-, heq⟩ := Option.ite_none_right_eq_some.mp ht
        cases heq
        exact budget_wait hfds hR hW hB hm (hepoll ready rfl hm)
      · exact budget_loop hfds hR hQ hB hm hloop

end System

/-- **The queues are bounded.**  In every run in which `epoll_wait` is level-triggered, the
queue of `ManagerA` holds one event more than `MAX_QUEUE_SIZE` at most, and that of
`ManagerC`, which checks nothing, twice as many. -/
theorem queue_bounds {maxQueueSize : ℕ} {fds : Name → ℤ × ℤ} (hfds : Opened fds)
    {tr : List (System × Action)} {s : System}
    (h : (program maxQueueSize fds).Run (.start fds) tr s)
    (hepoll : ∀ p ∈ tr, EpollStep fds p.1 p.2) :
    (s.managers .managerA).txQueue.length ≤ maxQueueSize + 1 ∧
    (s.managers .managerC).txQueue.length ≤ 2 * (maxQueueSize + 1) := by
  obtain ⟨-, hQ, -, hB⟩ := h.invariant (I := System.Bounded maxQueueSize fds)
    (fun s a t => System.bounded_step hfds) hepoll (System.bounded_start hfds)
  refine ⟨hQ.le, ?_⟩
  have hone := Nat.mul_le_mul_right (maxQueueSize + 1)
    (Nat.add_le_add_left (hB.visits .managerC) 1)
  have hbudget := hB.budget
  omega

/-- `ManagerA` sends in the first round, between the rounds and in the second round, which
serves it before `ManagerC`. -/
def worstRound : List Action :=
  List.replicate 8 (Action.run 100) ++ List.replicate 19 (Action.main [5]) ++
    List.replicate 8 (Action.run 200) ++ List.replicate 11 (Action.main [5, 11]) ++
    List.replicate 8 (Action.run 300)

/-- With `MAX_QUEUE_SIZE` set to `0` both bounds are reached. -/
theorem queue_bounds_reached : ∃ tr s,
    (program 0 sampleFds).Run (.start sampleFds) tr s ∧
    (∀ p ∈ tr, EpollStep sampleFds p.1 p.2) ∧
    ((s.managers .managerA).txQueue.length = 1 ∧
      (s.managers .managerC).txQueue.length = 2) ∧
    (s.managers .managerA).txQueue.length ≤ 0 + 1 ∧
    (s.managers .managerC).txQueue.length ≤ 2 * (0 + 1) := by
  have hlens : ((program 0 sampleFds).exec (.start sampleFds) worstRound).map (fun s =>
      ((s.managers .managerA).txQueue.length, (s.managers .managerC).txQueue.length)) =
      some (1, 2) := by decide +kernel
  have hepoll : ∀ p ∈ (program 0 sampleFds).trace (.start sampleFds) worstRound,
      EpollStep sampleFds p.1 p.2 := by decide +kernel
  obtain ⟨s, hs, hlen⟩ := Option.map_eq_some_iff.mp hlens
  have hr := Machine.run_of_exec hs
  exact ⟨_, s, hr, hepoll, Prod.mk.inj hlen, queue_bounds opened_sampleFds hr hepoll⟩

end EventManager.Main
