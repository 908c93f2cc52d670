import Mathlib.Logic.Function.Basic
import Mathlib.Data.List.Infix

/-!
# IManager

`Run` of a manager adds its three counters to the prometheus server and starts the thread,
which calls `_preRunImpl` and then `_runImpl` for as long as `_running` is true.  `Stop`
stores `false` to `_running` and joins the thread, if there is one to join.

The functions here take one step of a method or of the thread.
-/

namespace EventManager.IManager

/-- The counters of a manager. -/
inductive Counter
  | eventRx
  | eventTx
  | eventTxDropped
deriving DecidableEq, Repr

/-- The arguments of `AddCounter` for a counter of the manager whose thread is called
`threadName`. -/
def Counter.request (threadName : String) : Counter → String × String
  | .eventRx =>
    ("eventRx" ++ threadName, "Total number of times the manager has received events")
  | .eventTx =>
    ("eventTx" ++ threadName, "Total number of times the manager has transmitted events")
  | .eventTxDropped =>
    ("eventTxDropped" ++ threadName,
      "Total number of times the manager has dropped events due to full queue")

/-- The members of a manager. -/
structure Members where
  /-- `_prometheus` is not null. -/
  prometheus : Bool
  /-- The pointers `_eventRxCounter`, `_eventTxCounter` and `_eventTxDroppedCounter`; `0` is
  null. -/
  counters : Counter → ℕ
  /-- `_running`. -/
  running : Bool
  /-- `_thread.joinable()`. -/
  joinable : Bool

/-- A step of `Run`. -/
inductive RunStatement
  /-- `AddCounter`, and the assignment of its result. -/
  | addCounter (c : Counter)
  /-- The constructor of `std::thread`: the new thread can run. -/
  | construct
  /-- The assignment to `_thread`. -/
  | assign
deriving DecidableEq, Repr

/-- The step that `Stop` takes next. -/
inductive StopPc
  | store
  | joinable
  | join
deriving DecidableEq, Repr

/-- The step that the thread of a manager takes next. -/
inductive ThreadPc
  /-- `_threadName` and `pthread_setname_np`. -/
  | setName
  | callPreRunImpl
  /-- In `_preRunImpl`. -/
  | preRunImpl
  /-- `_running.load()`. -/
  | load
  | callRunImpl
  /-- In `_runImpl`. -/
  | runImpl
  /-- The thread has ended. -/
  | ended
deriving DecidableEq, Repr

/-- The steps of `Run`. -/
def run : List RunStatement :=
  [.addCounter .eventRx, .addCounter .eventTx, .addCounter .eventTxDropped, .construct,
    .assign]

namespace Members

/-- A new manager. -/
def create : Members := ⟨false, fun _ => 0, true, false⟩

/-- `SetPrometheus`, with a server. -/
def setPrometheus (m : Members) : Members := { m with prometheus := true }

/-- One step of `Run`; `address` is what `AddCounter` returns. -/
def runStep (m : Members) (address : ℕ) : RunStatement → Members
  | .addCounter c => { m with counters := Function.update m.counters c address }
  | .construct => m
  | .assign => { m with joinable := true }

/-- One step of `Stop`, and the step after it; `ended` tells whether the thread has ended. -/
def stop (m : Members) (ended : Bool) : StopPc → Option (Members × Option StopPc)
  | .store => some ({ m with running := false }, some .joinable)
  | .joinable => some (m, if m.joinable then some .join else none)
  | .join => if ended then some ({ m with joinable := false }, none) else none

lemma stop_keeps {m m' : Members} {ended : Bool} {pc : StopPc} {pc' : Option StopPc}
    (h : m.stop ended pc = some (m', pc')) :
    m'.prometheus = m.prometheus ∧ m'.counters = m.counters := by
  cases pc with
  | store =>
    cases h
    exact ⟨rfl, rfl⟩
  | joinable =>
    cases h
    exact ⟨rfl, rfl⟩
  | join =>
    simp only [stop] at h
    split at h
    · cases h
      exact ⟨rfl, rfl⟩
    · cases h

end Members

/-- The thread after a step; `running` is what it finds in `_running`. -/
def ThreadPc.next (running : Bool) : ThreadPc → Option ThreadPc
  | .setName => some .callPreRunImpl
  | .callPreRunImpl => some .preRunImpl
  | .preRunImpl => some .load
  | .load => some (if running then .callRunImpl else .ended)
  | .callRunImpl => some .runImpl
  | .runImpl => some .load
  | .ended => none

/-- The thread that `Run` has started, after a step of `Run`. -/
def RunStatement.spawn : RunStatement → Option ThreadPc → Option ThreadPc
  | .construct, _ => some .setName
  | _, thread => thread

end EventManager.IManager
