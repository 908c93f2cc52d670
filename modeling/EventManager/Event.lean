import Mathlib.Data.Int.Init

/-!
# The events of the small programs

`EventA` and `EventB`, as `main.cpp`, `app6.cpp`, `app7.cpp`, `app8.cpp` and
`app11.cpp` declare them.
-/

namespace EventManager

/-- `EventType`. -/
inductive EventType
  | eventTypeA
  | eventTypeB
deriving DecidableEq, Repr

/-- The classes derived from `Event`, with their members. -/
inductive Event
  | eventA (dataA : ℤ)
  | eventB (dataB : ℤ)
deriving DecidableEq, Repr

/-- The member `type`. -/
def Event.type : Event → EventType
  | .eventA _ => .eventTypeA
  | .eventB _ => .eventTypeB

/-- `Event::UPtr`: null, or the owner of an event. -/
abbrev UPtr : Type := Option Event

end EventManager
