import Mathlib.Data.Finset.Insert

/-!
# EventPoller

The registry of `inc/EventPoller.h`: the descriptors that an epoll instance watches, and for
some of them a producer and a consumer.  A weak pointer is the name of what it points to.
-/

namespace EventManager

/-- The members of an `EventPoller`, and the kernel's interest list behind `_fd`. -/
structure EventPoller (P C : Type) where
  /-- The descriptors in the interest list. -/
  interest : Finset ℤ
  /-- `_watchers`. -/
  watchers : ℤ → Option (P × C)

namespace EventPoller

variable {P C : Type}

/-- The constructor. -/
def create : EventPoller P C := ⟨∅, fun _ => none⟩

/-- `epoll_ctl` with `EPOLL_CTL_ADD`, and what it returns.  It fails when the descriptor is
in the list; when `ok` is false it fails for another reason. -/
def ctlAdd (poller : EventPoller P C) (ok : Bool) (fd : ℤ) : EventPoller P C × ℤ :=
  if ok ∧ fd ∉ poller.interest then ({ poller with interest := insert fd poller.interest }, 0)
  else (poller, -1)

/-- `Add(flags, fd)`. -/
def add (poller : EventPoller P C) (ok : Bool) (fd : ℤ) : EventPoller P C × ℤ :=
  if fd ≠ -1 then poller.ctlAdd ok fd else (poller, 0)

/-- `Add(flags, fd, producer, consumer)`. -/
def addPair (poller : EventPoller P C) (ok : Bool) (fd : ℤ) (producer : P) (consumer : C) :
    EventPoller P C × ℤ :=
  if fd ≠ -1 then
    if (poller.add ok fd).2 = 0 then
      ({ (poller.add ok fd).1 with
        watchers := Function.update (poller.add ok fd).1.watchers fd (some (producer, consumer)) },
        (poller.add ok fd).2)
    else poller.add ok fd
  else (poller, 0)

variable {poller : EventPoller P C} {fd : ℤ}

lemma add_of_not_mem (hfd : fd ≠ -1) (hmem : fd ∉ poller.interest) :
    poller.add true fd = ({ poller with interest := insert fd poller.interest }, 0) := by
  rw [add, if_pos hfd, ctlAdd, if_pos ⟨rfl, hmem⟩]

lemma addPair_of_not_mem (hfd : fd ≠ -1) (hmem : fd ∉ poller.interest) (producer : P)
    (consumer : C) : poller.addPair true fd producer consumer =
      (⟨insert fd poller.interest,
        Function.update poller.watchers fd (some (producer, consumer))⟩, 0) := by
  rw [addPair, if_pos hfd, add_of_not_mem hfd hmem]
  rfl

end EventPoller

end EventManager
