import EventManager.IManager.Basic
import EventManager.Main.Conservation

/-!
# From the start of main to its end

`program` is the loop of `main`, with a thread of `ManagerA` that is always there.  Here `main`
begins before it: it sets the prometheus server of all three managers, runs `ManagerA` and
`ManagerC`, adds a counter of its own, and enters the loop; when a signal has come it leaves
the loop and stops the managers.  The threads begin with `Run` and end after `Stop`.

`ManagerB` is never run, so that its counters stay null.  Both the poller and `main` can call
it, but nothing that it would count ever comes to it: every pointer that is given to
`IncrementCounter` is the result of an `AddCounter` (`increments_added`).
-/

namespace EventManager.Main

open Steps IManager

/-- `_threadName`. -/
def threadName : Name → String
  | .managerA => "ManagerA"
  | .managerB => "ManagerB"
  | .managerC => "ManagerC"

/-- The arguments of `AddCounter` for `eventsProducedCounter`. -/
def producedRequest : String × String :=
  ("events_produced_total", "Total number of events produced")

/-- A step of `main` before its loop. -/
inductive Statement
  | setPrometheus (m : Name)
  /-- A step of `Run`. -/
  | run (m : Name) (st : RunStatement)
  /-- The declaration of `eventsProducedCounter`. -/
  | addProduced
  /-- `prometheusServer.Start`. -/
  | startServer
deriving DecidableEq, Repr

/-- What `main` does before its loop; `managerB->Run()` is commented out. -/
def startup : List Statement :=
  [Statement.setPrometheus .managerA, .setPrometheus .managerB, .setPrometheus .managerC] ++
    IManager.run.map (Statement.run .managerA) ++ IManager.run.map (Statement.run .managerC) ++
    [Statement.addProduced, .startServer]

/-- Where `main` is. -/
inductive Phase
  /-- Before its loop, with the statements `rest` to come. -/
  | startup (rest : List Statement)
  /-- `running.load()`. -/
  | test
  /-- In the body of its loop. -/
  | body
  /-- In `Stop` of a manager. -/
  | stop (m : Name) (pc : StopPc)
  | ended
deriving DecidableEq, Repr

/-- The statements before the loop that are still to come. -/
def Phase.pending : Phase → List Statement
  | startup rest => rest
  | _ => []

/-- What `main` does when `Stop` of a manager has returned. -/
def Phase.afterStop : Name → Phase
  | .managerA => .stop .managerB .store
  | .managerB => .stop .managerC .store
  | .managerC => .ended

/-- The state of an execution of `main.cpp`. -/
structure Execution where
  /-- What the loop and the thread of `ManagerA` work on. -/
  system : System
  /-- The members of `IManager`. -/
  members : Name → Members
  /-- The threads that `Run` has started. -/
  threads : Name → Option ThreadPc
  /-- Where `main` is. -/
  phase : Phase
  /-- The global `running`. -/
  running : Bool
  /-- `eventsProducedCounter`. -/
  eventsProducedCounter : ℕ
  /-- The calls of `AddCounter`, with what they have returned. -/
  added : List ((String × String) × ℕ)

/-- A step of a thread: `data` is the random number of `ManagerA`, and `ready` what
`epoll_wait` returns; or a signal. -/
inductive ExecutionAction
  | managerA (data : ℤ)
  | managerC
  | main (ready : List ℤ)
  | signal
deriving DecidableEq, Repr

/-- The counter that a call of `IncrementCounter` is about. -/
inductive Increment
  | manager (m : Name) (c : Counter)
  | produced
deriving DecidableEq, Repr

/-- The arguments with which the counter is added. -/
def Increment.request : Increment → String × String
  | manager m c => c.request (threadName m)
  | produced => producedRequest

/-- The counters that a step of `_runImpl` gives to `IncrementCounter`. -/
def RunPc.counters : RunPc → List Counter
  | incTxDropped => [.eventTxDropped]
  | incTx => [.eventTx]
  | _ => []

/-- The counters that a step of `Consume` of `ManagerC` gives to `IncrementCounter`. -/
def ReceivePc.counters : ReceivePc → List Counter
  | incRx => [.eventRx]
  | incTx => [.eventTx]
  | _ => []

/-- The calls of `IncrementCounter` in a step of the loop of `main`. -/
def MainPc.increments : MainPc → List Increment
  | .receive pc _ _ _ => pc.counters.map (.manager .managerC)
  | .execute .managerC _ _ => []
  | .execute c (_ :: _) _ => [.manager c .eventRx]
  | .dispatch (e :: _) _ => [.manager (dispatchTo e.type) .eventRx]
  | .incProduced _ _ => [.produced]
  | _ => []

namespace Execution

/-- The state in which the managers have been made and registered. -/
def start (fds : Name → ℤ × ℤ) : Execution :=
  ⟨.start fds, fun _ => .create, fun _ => none, .startup startup, true, 0, []⟩

/-- The pointer that is given to `IncrementCounter`. -/
def pointer (s : Execution) : Increment → ℕ
  | .manager m c => (s.members m).counters c
  | .produced => s.eventsProducedCounter

/-- The effect of a statement before the loop; `new` is what `AddCounter` returns, by the
number of calls before it. -/
def statement (new : ℕ → String × String → ℕ) (s : Execution) : Statement → Execution
  | .setPrometheus m =>
    { s with members := Function.update s.members m (s.members m).setPrometheus }
  | .run m (.addCounter c) =>
    let request := c.request (threadName m)
    let address := new s.added.length request
    { s with
      members :=
        Function.update s.members m ((s.members m).runStep address (.addCounter c))
      added := s.added ++ [(request, address)] }
  | .run m st =>
    { s with
      members := Function.update s.members m ((s.members m).runStep 0 st)
      threads := Function.update s.threads m (st.spawn (s.threads m)) }
  | .addProduced =>
    let address := new s.added.length producedRequest
    { s with
      eventsProducedCounter := address
      added := s.added ++ [(producedRequest, address)] }
  | .startServer => s

/-- One step of the thread of a manager outside `_runImpl`, or with a `_runImpl` that does
nothing, as that of `ManagerC`, whose poller is empty. -/
def threadStep (s : Execution) (m : Name) : Option Execution :=
  (s.threads m).bind fun pc => (pc.next (s.members m).running).map fun pc' =>
    { s with threads := Function.update s.threads m (some pc') }

/-- One step of the thread of `ManagerA`: `_runImpl` returns when it is back at its first
line. -/
def runA (maxQueueSize : ℕ) (s : Execution) (data : ℤ) : Option Execution :=
  if s.threads .managerA = some .runImpl then
    (s.system.runImpl maxQueueSize data).map fun t => { s with
      system := t
      threads := if t.run = .checkSize then
        Function.update s.threads .managerA (some .load) else s.threads }
  else s.threadStep .managerA

/-- One step of `main`. -/
def mainStep (fds : Name → ℤ × ℤ) (new : ℕ → String × String → ℕ) (s : Execution)
    (ready : List ℤ) : Option Execution :=
  match s.phase with
  | .startup [] => some { s with phase := .test }
  | .startup (st :: rest) => some { s.statement new st with phase := .startup rest }
  | .test => some { s with phase := if s.running then .body else .stop .managerA .store }
  | .body => (s.system.loop fds ready).map fun t => { s with
      system := t
      phase := if t.main = .wait then .test else .body }
  | .stop m pc => ((s.members m).stop (s.threads m = some .ended) pc).map fun p => { s with
      members := Function.update s.members m p.1
      phase := match p.2 with
        | some pc' => .stop m pc'
        | none => .afterStop m }
  | .ended => none

/-- The calls of `IncrementCounter` in a step. -/
def increments (s : Execution) : ExecutionAction → List Increment
  | .managerA _ =>
    if s.threads .managerA = some .runImpl then
      s.system.run.counters.map (.manager .managerA) else []
  | .main _ => if s.phase = .body then s.system.main.increments else []
  | _ => []

end Execution

/-- The threads of `ManagerA` and `ManagerC`, and `main`. -/
def execution (maxQueueSize : ℕ) (fds : Name → ℤ × ℤ) (new : ℕ → String × String → ℕ) :
    Machine Execution ExecutionAction where
  init s := s = .start fds
  next s
    | .managerA data => s.runA maxQueueSize data
    | .managerC => s.threadStep .managerC
    | .main ready => s.mainStep fds new ready
    | .signal => some { s with running := false }

/-! ### The calls of IncrementCounter -/

/-- What the counters of a manager count. -/
def Manager.value (m : Manager) : Counter → ℕ
  | .eventRx => m.eventRx
  | .eventTx => m.eventTx
  | .eventTxDropped => m.eventTxDropped

/-- What the counters of the program count. -/
def System.value (s : System) : Increment → ℕ
  | .manager m c => (s.managers m).value c
  | .produced => s.produced

namespace Manager

variable {m m' : Manager} {e : Event}

lemma runImpl_value {maxQueueSize : ℕ} {pc pc' : RunPc}
    (h : m.runImpl maxQueueSize e pc = some (m', pc')) (c : Counter) :
    m'.value c = m.value c + pc.counters.count c := by
  rcases runImpl_cases h with ⟨rfl, -, rfl, -⟩ | ⟨rfl, -, rfl, -⟩ | ⟨rfl, rfl, -⟩ |
    ⟨rfl, rfl, -⟩ | ⟨rfl, rfl, -⟩ | ⟨rfl, rfl, -⟩ | ⟨fpc, rfl, rfl, -⟩ | ⟨rfl, rfl, -⟩ <;>
    cases c <;> rfl

lemma produce_value {pc : ProducePc} {r : ProducePc ⊕ List Event}
    (h : m.produce pc = some (m', r)) (c : Counter) :
    m'.value c = m.value c + ([] : List Counter).count c := by
  rcases produce_cases h with ⟨rfl, rfl, -⟩ | ⟨rfl, rfl, -⟩ |
    ⟨cpc, es, ev, cpc', rfl, -, rfl, -⟩ | ⟨es, rfl, rfl, -⟩ <;>
    cases c <;> rfl

lemma consume_value (c : Counter) :
    m.consume.value c = m.value c + [Counter.eventRx].count c := by
  cases c <;> rfl

lemma receive_value {pc : ReceivePc} {pc' : Option ReceivePc}
    (h : m.receive e pc = some (m', pc')) (c : Counter) :
    m'.value c = m.value c + pc.counters.count c := by
  rcases receive_cases h with ⟨rfl, rfl, -⟩ | ⟨rfl, rfl, -⟩ | ⟨rfl, rfl, -⟩ | ⟨rfl, rfl, -⟩ |
    ⟨fpc, rfl, rfl, -⟩ | ⟨rfl, rfl, -⟩ <;>
    cases c <;> rfl

end Manager

namespace System

variable {fds : Name → ℤ × ℤ} {maxQueueSize : ℕ}

/-- When one manager moves, the program counts what the manager counts. -/
lemma value_update {s t : System} {p : Name} {m' : Manager} {cs : List Counter}
    {is : List Increment} (i : Increment) (his : is = cs.map (.manager p))
    (hmanagers : t.managers = Function.update s.managers p m')
    (hproduced : t.produced = s.produced)
    (h : ∀ c, m'.value c = (s.managers p).value c + cs.count c) :
    t.value i = s.value i + is.count i := by
  subst his
  cases i with
  | manager q c =>
    by_cases hq : q = p
    · subst hq
      have hinj : Function.Injective (Increment.manager q) := fun _ _ heq => by cases heq; rfl
      rw [value, value, hmanagers, Function.update_self, h c,
        List.count_map_of_injective _ _ hinj]
    · have hnone : Increment.manager q c ∉ cs.map (.manager p) := by
        simp [Ne.symm hq]
      rw [value, value, hmanagers, Function.update_of_ne hq,
        List.count_eq_zero_of_not_mem hnone, Nat.add_zero]
  | produced =>
    have hnone : Increment.produced ∉ cs.map (.manager p) := by simp
    rw [value, value, hproduced, List.count_eq_zero_of_not_mem hnone, Nat.add_zero]

lemma value_runImpl {s t : System} {data : ℤ} (h : s.runImpl maxQueueSize data = some t)
    (i : Increment) :
    t.value i = s.value i + (s.run.counters.map (.manager .managerA)).count i := by
  obtain ⟨m', pc', hm, rfl⟩ := runImpl_eq_some h
  exact value_update i rfl rfl rfl (Manager.runImpl_value hm)

lemma value_loop {s t : System} (h : s.Loops fds t) (i : Increment) :
    t.value i = s.value i + s.main.increments.count i := by
  have hstill : ∀ main' : MainPc, s.main.increments = [] →
      { s with main := main' }.value i = s.value i + s.main.increments.count i := by
    intro main' hnil
    rw [hnil]
    cases i <;> rfl
  cases h with
  | wait ready hm => exact hstill _ (by rw [hm]; rfl)
  | leave hm => exact hstill _ (by rw [hm]; rfl)
  | own fd rest hm hfd => exact hstill _ (by rw [hm]; rfl)
  | unknown fd rest hm hfd => exact hstill _ (by rw [hm]; rfl)
  | execute fd rest p c hm hfd hp => exact hstill _ (by rw [hm]; rfl)
  | produce p c pc pc' rest m' hm hstep =>
    exact value_update i (by rw [hm]; rfl) rfl rfl
      (Manager.produce_value hstep)
  | produced p c pc es rest m' hm hstep =>
    exact value_update i (by rw [hm]; rfl) rfl rfl
      (Manager.produce_value hstep)
  | producedOwn p pc es rest m' hm hstep =>
    exact value_update i (by rw [hm]; rfl) rfl rfl
      (Manager.produce_value hstep)
  | executed c rest hm =>
    refine hstill _ ?_
    rw [hm]
    cases c <;> rfl
  | callReceive e es rest hm => exact hstill _ (by rw [hm]; rfl)
  | consume c e es rest hm hc =>
    have hincrements : s.main.increments = [Counter.eventRx].map (.manager c) := by
      rw [hm]
      cases c with
      | managerC => exact absurd rfl hc
      | _ => rfl
    exact value_update i hincrements rfl rfl Manager.consume_value
  | receive pc pc' e es rest m' hm hstep =>
    exact value_update i (by rw [hm]; rfl) rfl rfl (Manager.receive_value hstep)
  | receivedEvent pc e es rest m' hm hstep =>
    exact value_update i (by rw [hm]; rfl) rfl rfl (Manager.receive_value hstep)
  | dispatched rest hm => exact hstill _ (by rw [hm]; rfl)
  | dispatch e es rest hm =>
    exact value_update i (by rw [hm]; rfl) rfl rfl Manager.consume_value
  | incProduced es rest hm =>
    rw [hm]
    cases i <;> rfl

end System

namespace Execution

variable {fds : Name → ℤ × ℤ} {maxQueueSize : ℕ} {new : ℕ → String × String → ℕ}

lemma threadStep_eq_some {s t : Execution} {m : Name} (h : s.threadStep m = some t) :
    ∃ pc pc', s.threads m = some pc ∧ pc.next (s.members m).running = some pc' ∧
      t = { s with threads := Function.update s.threads m (some pc') } := by
  obtain ⟨pc, hpc, hmap⟩ := Option.bind_eq_some_iff.mp h
  obtain ⟨pc', hpc', rfl⟩ := Option.map_eq_some_iff.mp hmap
  exact ⟨pc, pc', hpc, hpc', rfl⟩

/-- The steps of an execution, by what they work on. -/
inductive Advances (maxQueueSize : ℕ) (fds : Name → ℤ × ℤ) (new : ℕ → String × String → ℕ)
    (s : Execution) : ExecutionAction → Execution → Prop
  /-- A thread outside its `_runImpl`. -/
  | thread (a : ExecutionAction) (m : Name) (pc pc' : ThreadPc) (h : s.threads m = some pc)
      (hnone : s.increments a = []) :
      Advances maxQueueSize fds new s a
        { s with threads := Function.update s.threads m (some pc') }
  /-- `_runImpl` of `ManagerA`. -/
  | runImpl (data : ℤ) (t : System) (threads : Name → Option ThreadPc)
      (h : s.threads .managerA = some .runImpl)
      (ht : s.system.runImpl maxQueueSize data = some t) :
      Advances maxQueueSize fds new s (.managerA data)
        { s with system := t, threads := threads }
  /-- A statement before the loop. -/
  | statement (ready : List ℤ) (st : Statement) (rest : List Statement)
      (h : s.phase = .startup (st :: rest)) :
      Advances maxQueueSize fds new s (.main ready)
        { s.statement new st with phase := .startup rest }
  /-- The body of the loop. -/
  | loop (ready : List ℤ) (t : System) (phase : Phase) (h : s.phase = .body)
      (ht : s.system.loop fds ready = some t) (hphase : phase.pending = []) :
      Advances maxQueueSize fds new s (.main ready) { s with system := t, phase := phase }
  /-- `main` enters the loop, or tests `running`. -/
  | test (ready : List ℤ) (phase : Phase) (h : s.phase.pending = [])
      (hbody : s.phase ≠ .body) (hphase : phase.pending = []) :
      Advances maxQueueSize fds new s (.main ready) { s with phase := phase }
  /-- `Stop` of a manager. -/
  | stop (ready : List ℤ) (m : Name) (pc : StopPc) (ended : Bool) (m' : Members)
      (pc' : Option StopPc) (phase : Phase) (h : s.phase = .stop m pc)
      (hm : (s.members m).stop ended pc = some (m', pc')) (hphase : phase.pending = []) :
      Advances maxQueueSize fds new s (.main ready)
        { s with members := Function.update s.members m m', phase := phase }
  | signal : Advances maxQueueSize fds new s .signal { s with running := false }

lemma advances_of_mainStep {s t : Execution} {ready : List ℤ}
    (h : s.mainStep fds new ready = some t) :
    s.Advances maxQueueSize fds new (.main ready) t := by
  unfold mainStep at h
  match hphase : s.phase with
  | .startup [] =>
    simp only [hphase] at h
    obtain rfl := Option.some.inj h
    exact .test ready _ (by rw [hphase]; rfl) (by simp [hphase]) rfl
  | .startup (st :: rest) =>
    simp only [hphase] at h
    obtain rfl := Option.some.inj h
    exact .statement ready st rest hphase
  | .test =>
    simp only [hphase] at h
    obtain rfl := Option.some.inj h
    refine .test ready _ (by rw [hphase]; rfl) (by simp [hphase]) ?_
    split <;> rfl
  | .body =>
    simp only [hphase] at h
    obtain ⟨u, hu, rfl⟩ := Option.map_eq_some_iff.mp h
    refine .loop ready u _ hphase hu ?_
    split <;> rfl
  | .stop m pc =>
    simp only [hphase] at h
    obtain ⟨⟨m', pc'⟩, hm, rfl⟩ := Option.map_eq_some_iff.mp h
    refine .stop ready m pc _ m' pc' _ hphase hm ?_
    cases pc' with
    | some pc' => rfl
    | none => cases m <;> rfl
  | .ended =>
    simp only [hphase] at h
    cases h

lemma advances_of_next {s t : Execution} {a : ExecutionAction}
    (h : (execution maxQueueSize fds new).next s a = some t) :
    s.Advances maxQueueSize fds new a t := by
  cases a with
  | managerA data =>
    have h : s.runA maxQueueSize data = some t := h
    rw [runA] at h
    by_cases hrun : s.threads .managerA = some .runImpl
    · rw [if_pos hrun] at h
      obtain ⟨u, hu, rfl⟩ := Option.map_eq_some_iff.mp h
      exact .runImpl data u _ hrun hu
    · rw [if_neg hrun] at h
      obtain ⟨pc, pc', hpc, -, rfl⟩ := threadStep_eq_some h
      exact .thread _ .managerA pc pc' hpc (by rw [increments, if_neg hrun])
  | managerC =>
    obtain ⟨pc, pc', hpc, -, rfl⟩ := threadStep_eq_some h
    exact .thread _ .managerC pc pc' hpc rfl
  | main ready => exact advances_of_mainStep h
  | signal =>
    obtain rfl := Option.some.inj h
    exact .signal

lemma statement_system (new : ℕ → String × String → ℕ) (s : Execution) (st : Statement) :
    (s.statement new st).system = s.system := by
  cases st with
  | run m st => cases st <;> rfl
  | _ => rfl

/-- What the program counts grows by one for every call of `IncrementCounter`. -/
lemma value_advances {s t : Execution} {a : ExecutionAction}
    (h : s.Advances maxQueueSize fds new a t) (i : Increment) :
    t.system.value i = s.system.value i + (s.increments a).count i := by
  have hnone : s.increments a = [] → s.system.value i =
      s.system.value i + (s.increments a).count i := by
    intro hnil
    simp [hnil]
  cases h with
  | thread _ m pc pc' hpc hnil => exact hnone hnil
  | runImpl data t threads hrun ht =>
    rw [increments, if_pos hrun]
    exact System.value_runImpl ht i
  | statement ready st rest hphase =>
    show (s.statement new st).system.value i = _
    rw [statement_system]
    exact hnone (by simp [increments, hphase])
  | loop ready t phase hphase ht =>
    rw [increments, if_pos hphase]
    exact System.value_loop (System.loops_of_loop ht) i
  | test ready phase hpending hbody => exact hnone (by simp [increments, hbody])
  | stop ready m pc ended m' pc' phase hphase => exact hnone (by simp [increments, hphase])
  | signal => exact hnone rfl

/-! ### The counters that have been added -/

/-- The statement has had its effect. -/
def Done (s : Execution) : Statement → Prop
  | .setPrometheus m => (s.members m).prometheus = true
  | .run m (.addCounter c) => (c.request (threadName m), (s.members m).counters c) ∈ s.added
  | .addProduced => (producedRequest, s.eventsProducedCounter) ∈ s.added
  | _ => True

/-- What has been done stays done while the members that it is about are left alone. -/
lemma Done.mono {s t : Execution} {st : Statement} (h : s.Done st)
    (hprometheus : ∀ m, (s.members m).prometheus = true → (t.members m).prometheus = true)
    (hcounters : ∀ m c, st = .run m (.addCounter c) →
      (t.members m).counters c = (s.members m).counters c)
    (hproduced : st = .addProduced → t.eventsProducedCounter = s.eventsProducedCounter)
    (hadded : s.added ⊆ t.added) : t.Done st := by
  cases st with
  | setPrometheus m => exact hprometheus m h
  | run m st =>
    cases st with
    | addCounter c =>
      show (_, (t.members m).counters c) ∈ t.added
      rw [hcounters m c rfl]
      exact hadded h
    | _ => trivial
  | addProduced =>
    show (_, t.eventsProducedCounter) ∈ t.added
    rw [hproduced rfl]
    exact hadded h
  | startServer => trivial

lemma done_statement (s : Execution) (st : Statement) : (s.statement new st).Done st := by
  cases st with
  | setPrometheus m => simp [Done, statement, Members.setPrometheus]
  | run m st =>
    cases st with
    | addCounter c => simp [Done, statement, Members.runStep]
    | _ => trivial
  | addProduced => simp [Done, statement]
  | startServer => trivial

lemma prometheus_statement {s : Execution} {m : Name} (st : Statement)
    (h : (s.members m).prometheus = true) :
    ((s.statement new st).members m).prometheus = true := by
  cases st with
  | setPrometheus n =>
    by_cases hm : m = n
    · subst hm
      simp [statement, Members.setPrometheus]
    · simpa [statement, hm] using h
  | run n st =>
    by_cases hm : m = n
    · subst hm
      cases st <;> simpa [statement, Members.runStep] using h
    · cases st <;> simpa [statement, hm] using h
  | addProduced => exact h
  | startServer => exact h

/-- A pointer is written by its own statement only. -/
lemma counters_statement (s : Execution) {st : Statement} {m : Name} {c : Counter}
    (hne : st ≠ .run m (.addCounter c)) :
    ((s.statement new st).members m).counters c = (s.members m).counters c := by
  cases st with
  | setPrometheus n =>
    by_cases hm : m = n
    · subst hm
      simp [statement, Members.setPrometheus]
    · simp [statement, hm]
  | run n st =>
    by_cases hm : m = n
    · subst hm
      cases st with
      | addCounter d =>
        have hc : c ≠ d := fun heq => hne (by rw [heq])
        simp [statement, Members.runStep, hc]
      | _ => simp [statement, Members.runStep]
    · cases st <;> simp [statement, hm]
  | addProduced => rfl
  | startServer => rfl

lemma produced_statement (s : Execution) {st : Statement} (hne : st ≠ .addProduced) :
    (s.statement new st).eventsProducedCounter = s.eventsProducedCounter := by
  cases st with
  | run m st => cases st <;> rfl
  | addProduced => exact absurd rfl hne
  | _ => rfl

lemma added_statement (s : Execution) (st : Statement) :
    s.added ⊆ (s.statement new st).added := by
  intro p hp
  cases st with
  | run m st =>
    cases st with
    | addCounter c => exact List.mem_append_left _ hp
    | _ => exact hp
  | addProduced => exact List.mem_append_left _ hp
  | _ => exact hp

/-- A statement does not undo what another one has done. -/
lemma Done.statement {s : Execution} {st' : Statement} (h : s.Done st') (st : Statement) :
    (s.statement new st).Done st' := by
  by_cases heq : st = st'
  · subst heq
    exact done_statement s st
  · refine h.mono (fun m => prometheus_statement st) ?_ ?_ (added_statement s st)
    · rintro m c rfl
      exact counters_statement s heq
    · rintro rfl
      exact produced_statement s heq

lemma ne_null_statement {s : Execution} (hnew : ∀ n request, new n request ≠ 0)
    (h : ∀ p ∈ s.added, p.2 ≠ 0) (st : Statement) :
    ∀ p ∈ (s.statement new st).added, p.2 ≠ 0 := by
  have hsnoc : ∀ n request, ∀ p ∈ s.added ++ [(request, new n request)], p.2 ≠ 0 := by
    intro n request p hp
    rcases List.mem_append.mp hp with hp | hp
    · exact h p hp
    · rw [List.mem_singleton.mp hp]
      exact hnew n request
  cases st with
  | run m st =>
    cases st with
    | addCounter c => exact hsnoc _ _
    | _ => exact h
  | addProduced => exact hsnoc _ _
  | _ => exact h

lemma threads_statement {s : Execution} {st : Statement} {m : Name}
    (h : (s.statement new st).threads m ≠ none) :
    s.threads m ≠ none ∨ st = .run m .construct := by
  cases st with
  | run n st =>
    by_cases hm : m = n
    · subst hm
      cases st with
      | construct => exact Or.inr rfl
      | _ => exact Or.inl (by simpa [statement, RunStatement.spawn] using h)
    · refine Or.inl ?_
      cases st <;> simpa [statement, hm] using h
  | _ => exact Or.inl h

/-- The statements that have been taken have had their effects, the thread of `ManagerA` is
started by one of them, and the system is one of the program. -/
structure Registered (maxQueueSize : ℕ) (fds : Name → ℤ × ℤ) (s : Execution) : Prop where
  suffix : s.phase.pending <:+ startup
  done : ∀ st ∈ startup, st ∈ s.phase.pending ∨ s.Done st
  nonnull : ∀ p ∈ s.added, p.2 ≠ 0
  started : s.threads .managerA ≠ none → .run .managerA .construct ∉ s.phase.pending
  reachable : (program maxQueueSize fds).Reachable s.system

lemma registered_start : (start fds).Registered maxQueueSize fds :=
  ⟨List.suffix_refl _, fun _ hst => Or.inl hst, by simp [start], by simp [start],
    .of_init rfl⟩

lemma registered_statement {s : Execution} {st : Statement} {rest : List Statement}
    (hnew : ∀ n request, new n request ≠ 0) (h : s.Registered maxQueueSize fds)
    (hphase : s.phase = .startup (st :: rest)) :
    { s.statement new st with phase := .startup rest }.Registered maxQueueSize fds := by
  obtain ⟨hsuffix, hdone, hnonnull, hstarted, hreachable⟩ := h
  have hpending : s.phase.pending = st :: rest := by rw [hphase]; rfl
  rw [hpending] at hsuffix hdone hstarted
  have hnodup : (st :: rest).Nodup := hsuffix.sublist.nodup (by decide)
  refine ⟨(List.suffix_cons st rest).trans hsuffix, ?_, ?_, ?_, ?_⟩
  · intro st' hst'
    rcases hdone st' hst' with hmem | hst'
    · rcases List.mem_cons.mp hmem with rfl | hmem
      · exact Or.inr (done_statement s st')
      · exact Or.inl hmem
    · exact Or.inr (hst'.statement st)
  · exact ne_null_statement hnew hnonnull st
  · intro hthread
    rcases threads_statement hthread with hthread | rfl
    · exact fun hmem => hstarted hthread (List.mem_cons_of_mem _ hmem)
    · exact (List.nodup_cons.mp hnodup).1
  · show (program maxQueueSize fds).Reachable (s.statement new st).system
    rw [statement_system]
    exact hreachable

lemma Registered.keep {s t : Execution} (h : s.Registered maxQueueSize fds)
    (hpending : t.phase.pending = s.phase.pending)
    (hprometheus : ∀ m, (t.members m).prometheus = (s.members m).prometheus)
    (hcounters : ∀ m, (t.members m).counters = (s.members m).counters)
    (hproduced : t.eventsProducedCounter = s.eventsProducedCounter)
    (hadded : t.added = s.added)
    (hthread : t.threads .managerA ≠ none → s.threads .managerA ≠ none)
    (hreachable : (program maxQueueSize fds).Reachable t.system) :
    t.Registered maxQueueSize fds := by
  obtain ⟨hsuffix, hdone, hnonnull, hstarted, -⟩ := h
  rw [← hpending] at hsuffix hdone hstarted
  rw [← hadded] at hnonnull
  refine ⟨hsuffix, ?_, hnonnull, fun ht => hstarted (hthread ht), hreachable⟩
  intro st hst
  refine (hdone st hst).imp_right fun hst => hst.mono ?_ ?_ (fun _ => hproduced) ?_
  · intro m hm
    rw [hprometheus m, hm]
  · intro m c _
    rw [hcounters m]
  · rw [hadded]
    exact List.Subset.refl _

lemma registered_advances {s t : Execution} {a : ExecutionAction}
    (hnew : ∀ n request, new n request ≠ 0) (h : s.Registered maxQueueSize fds)
    (ha : s.Advances maxQueueSize fds new a t) : t.Registered maxQueueSize fds := by
  cases ha with
  | thread _ m pc pc' hpc hnil =>
    refine h.keep rfl (fun _ => rfl) (fun _ => rfl) rfl rfl ?_ h.reachable
    intro hthread
    by_cases hm : m = .managerA
    · subst hm
      simp [hpc]
    · simpa [Ne.symm hm] using hthread
  | runImpl data t threads hrun ht =>
    exact h.keep rfl (fun _ => rfl) (fun _ => rfl) rfl rfl (fun _ => by simp [hrun])
      (h.reachable.next (a := .run data) ht)
  | statement ready st rest hphase => exact registered_statement hnew h hphase
  | loop ready t phase hphase ht hpending =>
    refine h.keep ?_ (fun _ => rfl) (fun _ => rfl) rfl rfl id
      (h.reachable.next (a := .main ready) ht)
    rw [hpending, hphase]
    rfl
  | test ready phase hpending hbody hpending' =>
    exact h.keep (hpending'.trans hpending.symm) (fun _ => rfl) (fun _ => rfl) rfl rfl id
      h.reachable
  | stop ready m pc ended m' pc' phase hphase hm hpending =>
    have hkeep := Members.stop_keeps hm
    have hpending' : phase.pending = s.phase.pending := by rw [hpending, hphase]; rfl
    have hmembers : ∀ n, (Function.update s.members m m' n).prometheus =
        (s.members n).prometheus ∧
        (Function.update s.members m m' n).counters = (s.members n).counters := by
      intro n
      by_cases hn : n = m
      · subst hn
        rw [Function.update_self]
        exact hkeep
      · rw [Function.update_of_ne hn]
        exact ⟨rfl, rfl⟩
    exact h.keep hpending' (fun n => (hmembers n).1) (fun n => (hmembers n).2) rfl rfl id
      h.reachable
  | signal => exact h.keep rfl (fun _ => rfl) (fun _ => rfl) rfl rfl id h.reachable

lemma registered_of_reachable (hnew : ∀ n request, new n request ≠ 0) {s : Execution}
    (h : (execution maxQueueSize fds new).Reachable s) : s.Registered maxQueueSize fds := by
  refine h.invariant ?_ ?_
  · rintro s rfl
    exact registered_start
  · intro s a t hs ha
    exact registered_advances hnew hs (advances_of_next ha)

lemma not_mem_pending {pending : List Statement} (h : pending <:+ startup)
    (hstarted : .run .managerA .construct ∉ pending) :
    .setPrometheus .managerA ∉ pending ∧ ∀ c, .run .managerA (.addCounter c) ∉ pending := by
  have hall : ∀ pending ∈ startup.tails, .run .managerA .construct ∉ pending →
      .setPrometheus .managerA ∉ pending ∧
      .run .managerA (.addCounter .eventRx) ∉ pending ∧
      .run .managerA (.addCounter .eventTx) ∉ pending ∧
      .run .managerA (.addCounter .eventTxDropped) ∉ pending := by decide
  obtain ⟨hprometheus, hrx, htx, hdropped⟩ :=
    hall pending ((List.mem_tails _ _).mpr h) hstarted
  refine ⟨hprometheus, fun c => ?_⟩
  cases c
  · exact hrx
  · exact htx
  · exact hdropped

/-- What `main` increments belongs to `ManagerA`, to `ManagerC` or to itself: nothing comes to
`ManagerB`. -/
lemma increments_main (hfds : Opened fds) {s : System}
    (h : (program maxQueueSize fds).Reachable s) {i : Increment} (hi : i ∈ s.main.increments) :
    (∃ c, i = .manager .managerA c) ∨ (∃ c, i = .manager .managerC c) ∨ i = .produced := by
  have hshaped := (System.routed_of_reachable hfds h).shaped
  match hm : s.main with
  | .receive pc e es rest =>
    rw [hm] at hi
    obtain ⟨c, -, rfl⟩ := List.mem_map.mp hi
    exact Or.inr (Or.inl ⟨c, rfl⟩)
  | .execute c es rest =>
    -- `Execute` has no other consumer than `ManagerC`
    rw [hm] at hi hshaped
    obtain rfl : c = .managerC := hshaped
    simp [MainPc.increments] at hi
  | .dispatch [] rest =>
    rw [hm] at hi
    simp [MainPc.increments] at hi
  | .dispatch (e :: es) rest =>
    have he := System.type_of_wayFromC hfds h e (by simp [System.wayFromC, hm, MainPc.fromC])
    rw [hm] at hi
    refine Or.inl ⟨.eventRx, ?_⟩
    simpa [MainPc.increments, he, dispatchTo] using hi
  | .incProduced es rest =>
    rw [hm] at hi
    exact Or.inr (Or.inr (List.mem_singleton.mp hi))
  | .wait =>
    rw [hm] at hi
    simp [MainPc.increments] at hi
  | .entries rest =>
    rw [hm] at hi
    simp [MainPc.increments] at hi
  | .produce p c pc rest =>
    rw [hm] at hi
    simp [MainPc.increments] at hi

/-- When the statements of a manager are over, its server and its counters are there. -/
lemma Registered.manager {s : Execution} (h : s.Registered maxQueueSize fds) {m : Name}
    (hm : m ≠ .managerB) (hprometheus : .setPrometheus m ∉ s.phase.pending)
    (hadd : ∀ c, .run m (.addCounter c) ∉ s.phase.pending) (c : Counter) :
    (c.request (threadName m), (s.members m).counters c) ∈ s.added ∧
    (s.members m).counters c ≠ 0 ∧ (s.members m).prometheus = true := by
  have hset : .setPrometheus m ∈ startup := by cases m <;> decide
  have hrun : .run m (.addCounter c) ∈ startup := by
    cases m with
    | managerB => exact absurd rfl hm
    | _ => cases c <;> decide
  have hcounter : s.Done (.run m (.addCounter c)) := (h.done _ hrun).resolve_left (hadd c)
  exact ⟨hcounter, h.nonnull _ hcounter, (h.done _ hset).resolve_left hprometheus⟩

end Execution

open Execution

/-- **No increment of a counter that is not there.**  In every execution, with any schedule,
any signals and any ready descriptors, the calls of `IncrementCounter` in a step are those of
`increments`, and each is given the pointer that `AddCounter` has returned for its counter,
which is not null; a manager that makes one has its prometheus server. -/
theorem increments_added {maxQueueSize : ℕ} {fds : Name → ℤ × ℤ}
    {new : ℕ → String × String → ℕ} (hfds : Opened fds)
    (hnew : ∀ n request, new n request ≠ 0) {s t : Execution} {a : ExecutionAction}
    (h : (execution maxQueueSize fds new).Reachable s)
    (ha : (execution maxQueueSize fds new).next s a = some t) :
    (∀ i, t.system.value i = s.system.value i + (s.increments a).count i) ∧
    ∀ i ∈ s.increments a, (i.request, s.pointer i) ∈ s.added ∧ s.pointer i ≠ 0 ∧
      ∀ m c, i = .manager m c → (s.members m).prometheus = true := by
  refine ⟨value_advances (advances_of_next ha), fun i hi => ?_⟩
  have hregistered := registered_of_reachable hnew h
  cases a with
  | managerA data =>
    by_cases hrun : s.threads .managerA = some .runImpl
    · rw [increments, if_pos hrun] at hi
      obtain ⟨c, -, rfl⟩ := List.mem_map.mp hi
      obtain ⟨hprometheus, hadd⟩ :=
        not_mem_pending hregistered.suffix (hregistered.started (by simp [hrun]))
      obtain ⟨hcounter, hnonnull, hset⟩ :=
        hregistered.manager (by decide) hprometheus hadd c
      exact ⟨hcounter, hnonnull, fun _ _ heq => by cases heq; exact hset⟩
    · simp [increments, hrun] at hi
  | managerC => simp [increments] at hi
  | main ready =>
    by_cases hbody : s.phase = .body
    · rw [increments, if_pos hbody] at hi
      -- in the loop all statements are over
      have hnil : s.phase.pending = [] := by rw [hbody]; rfl
      have hmanager := fun (m : Name) (hm : m ≠ .managerB) =>
        hregistered.manager hm (by simp [hnil]) (by simp [hnil])
      rcases increments_main hfds hregistered.reachable hi with ⟨c, rfl⟩ | ⟨c, rfl⟩ | rfl
      · obtain ⟨hcounter, hnonnull, hset⟩ := hmanager .managerA (by decide) c
        exact ⟨hcounter, hnonnull, fun _ _ heq => by cases heq; exact hset⟩
      · obtain ⟨hcounter, hnonnull, hset⟩ := hmanager .managerC (by decide) c
        exact ⟨hcounter, hnonnull, fun _ _ heq => by cases heq; exact hset⟩
      · have hproduced : s.Done .addProduced :=
          (hregistered.done .addProduced (by decide)).resolve_left (by simp [hnil])
        exact ⟨hproduced, hregistered.nonnull _ hproduced, by simp⟩
    · simp [increments, hbody] at hi
  | signal => simp [increments] at hi

/-- An event of `ManagerA` comes back to it by way of `ManagerC`. -/
theorem increments_added_returned : ∃ s t,
    (execution 5000 sampleFds fun n _ => n + 1).Reachable s ∧
    (execution 5000 sampleFds fun n _ => n + 1).next s (.main []) = some t ∧
    s.increments (.main []) = [.manager .managerA .eventRx] ∧
    t.system.value (.manager .managerA .eventRx) = 1 ∧
    (("eventRxManagerA", "Total number of times the manager has received events"), 1) ∈
      s.added := by
  have h₀ : (execution 5000 sampleFds fun n _ => n + 1).Reachable (.start sampleFds) :=
    .of_init rfl
  obtain ⟨s, t, hs, ht, hincrements, hvalue, hpointer⟩ : ∃ s t,
      (execution 5000 sampleFds fun n _ => n + 1).exec (.start sampleFds)
        (List.replicate 16 (ExecutionAction.main []) ++
          List.replicate 13 (ExecutionAction.managerA 100) ++
          List.replicate 26 (ExecutionAction.main [5, 11])) = some s ∧
      (execution 5000 sampleFds fun n _ => n + 1).next s (.main []) = some t ∧
      s.increments (.main []) = [.manager .managerA .eventRx] ∧
      s.system.value (.manager .managerA .eventRx) = 0 ∧
      s.pointer (.manager .managerA .eventRx) = 1 :=
    ⟨_, _, rfl, rfl, rfl, rfl, rfl⟩
  obtain ⟨hcount, hadded⟩ :=
    increments_added opened_sampleFds (fun n _ => Nat.succ_ne_zero n) (h₀.exec hs) ht
  refine ⟨s, t, h₀.exec hs, ht, hincrements, ?_, ?_⟩
  · rw [hcount, hvalue, hincrements]
    rfl
  · have hmem := (hadded (.manager .managerA .eventRx) (by simp [hincrements])).1
    rwa [hpointer] at hmem

end EventManager.Main
