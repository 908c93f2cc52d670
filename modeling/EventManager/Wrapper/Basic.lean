import Mathlib.Data.Option.Basic

/-!
# Wrapper

The wrapper of `inc/List.h`: every call of a method of the wrapped object goes through a
`CallProxy`, which is made with the mutex locked and unlocks it when it is destroyed.
-/

namespace EventManager

/-- The members of a `Wrapper`. -/
structure Wrapper (T : Type) where
  /-- `_data`. -/
  data : T
  /-- `_mutex` is held. -/
  locked : Bool
deriving DecidableEq, Repr

/-- The step that a proxied call takes next. -/
inductive ProxyPc
  /-- `operator->`: `_mutex.lock()`. -/
  | lock
  /-- The call of the method. -/
  | call
  /-- `~CallProxy`: `_mutex.unlock()`. -/
  | unlock
deriving DecidableEq, Repr

namespace Wrapper

variable {T R : Type}

/-- The default constructor, with the wrapped object `data`. -/
def create (data : T) : Wrapper T := ⟨data, false⟩

/-- One step of the proxied call of `method`: the result of the method, when the step is the
call, and the step after it.  The lock of a mutex that is held waits: there is no step. -/
def proxy (w : Wrapper T) (method : T → T × R) :
    ProxyPc → Option (Wrapper T × Option R × Option ProxyPc)
  | .lock => if w.locked then none else some ({ w with locked := true }, none, some .call)
  | .call =>
    some ({ w with data := (method w.data).1 }, some (method w.data).2, some .unlock)
  | .unlock => some ({ w with locked := false }, none, none)

lemma proxy_cases {w w' : Wrapper T} {method : T → T × R} {pc : ProxyPc} {r : Option R}
    {pc' : Option ProxyPc} (h : w.proxy method pc = some (w', r, pc')) :
    (pc = .lock ∧ w.locked = false ∧ w' = { w with locked := true } ∧ r = none ∧
      pc' = some .call) ∨
    (pc = .call ∧ w' = { w with data := (method w.data).1 } ∧ r = some (method w.data).2 ∧
      pc' = some .unlock) ∨
    (pc = .unlock ∧ w' = { w with locked := false } ∧ r = none ∧ pc' = none) := by
  cases pc with
  | lock =>
    simp only [proxy] at h
    split at h
    · cases h
    · rename_i hl
      cases h
      exact Or.inl ⟨rfl, by simpa using hl, rfl, rfl, rfl⟩
  | call =>
    cases h
    exact Or.inr (Or.inl ⟨rfl, rfl, rfl, rfl⟩)
  | unlock =>
    cases h
    exact Or.inr (Or.inr ⟨rfl, rfl, rfl, rfl⟩)

end Wrapper

end EventManager
