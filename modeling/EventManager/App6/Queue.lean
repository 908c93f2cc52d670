import EventManager.App6.Wakeup
import EventManager.LockeFreeQueue.Reclamation

/-!
# How app6 uses its queue

The manager's thread of app6 is the only one that calls `emplace_back`, and the poller the
only one that calls `swap`: seen from the queue the program is the machine `threads` with one
emplacing thread (`simulates_threads`).  So what holds of the queue for any number of threads
holds in app6, and neither thread is ever stuck in a step of the queue (`run_enabled`,
`swap_enabled`).
-/

namespace EventManager.App6

open Steps LockeFreeQueue

/-- The call of `emplace_back` that `_runImpl` is in. -/
def RunPc.emplacePc {tx : TxQueue UPtr} : RunPc tx → Option tx.EmplacePc
  | .emplace pc => some pc
  | _ => none

/-- The call of `swap` of the queue that `Produce` is in. -/
def PollPc.swapPc {tx : TxQueue UPtr} : PollPc tx → Option tx.SwapPc
  | .swap pc _ => some pc
  | _ => none

namespace Sender

/-- The program looks to its queue like one thread that emplaces and one that swaps. -/
structure QueueView (s : Sender (lockeFree UPtr)) (q : Threads Unit UPtr) : Prop where
  queue : q.queue = s.txQueue
  emplace : q.emplace () = s.run.emplacePc
  swap : q.swap = s.poll.swapPc

variable {fds : ℤ × ℤ} {s t : Sender (lockeFree UPtr)} {q : Threads Unit UPtr}

lemma queueView_run {data : ℤ} (hv : QueueView s q) (h : s.runImpl data = some t) :
    QueueView t q ∨ ∃ b q', (threads Unit UPtr).next q b = some q' ∧ QueueView t q' := by
  obtain ⟨hq, he, hs⟩ := hv
  rcases runImpl_cases h with ⟨hrun, rfl⟩ | ⟨pc, q₁, pc', hrun, hstep, rfl⟩ |
    ⟨pc, q₁, hrun, hstep, rfl⟩ | ⟨hrun, rfl⟩ | ⟨pc, pc', hrun, -, rfl⟩ | ⟨pc, hrun, -, rfl⟩
  all_goals rw [hrun] at he
  · -- a call begins
    refine Or.inr ⟨_, _, next_callEmplace (some (.eventA data)) he, hq, ?_, hs⟩
    rfl
  · have hq' : q.queue.emplaceBack pc = some (q₁, some pc') := by rw [hq]; exact hstep
    refine Or.inr ⟨_, _, next_emplace he hq', rfl, ?_, hs⟩
    rfl
  · have hq' : q.queue.emplaceBack pc = some (q₁, none) := by rw [hq]; exact hstep
    refine Or.inr ⟨_, _, next_emplace he hq', rfl, ?_, hs⟩
    simp only [Function.update_self]
    rfl
  · exact Or.inl ⟨hq, he, hs⟩
  · exact Or.inl ⟨hq, he, hs⟩
  · exact Or.inl ⟨hq, he, hs⟩

lemma queueView_poll (hv : QueueView s q) (h : s.pollImpl = some t) :
    QueueView t q ∨ ∃ b q', (threads Unit UPtr).next q b = some q' ∧ QueueView t q' := by
  obtain ⟨hq, he, hs⟩ := hv
  rcases pollImpl_cases h with ⟨hpoll, -, rfl⟩ | ⟨pc, es, q₁, es', pc', hpoll, hstep, rfl⟩ |
    ⟨pc, es, q₁, es', hpoll, hstep, rfl⟩ | ⟨pc, es, ev, pc', hpoll, -, rfl⟩ |
    ⟨pc, es, ev, hpoll, -, rfl⟩ | ⟨hpoll, rfl⟩ | ⟨e, es, hpoll, rfl⟩
  all_goals rw [hpoll] at hs
  · refine Or.inr ⟨_, _, next_callSwap hs, hq, he, ?_⟩
    rw [hq]
    rfl
  · obtain ⟨⟨q₂, out, pc₂⟩, hq₂, heq⟩ := Option.map_eq_some_iff.mp hstep
    cases heq
    rw [← hq] at hq₂
    exact Or.inr ⟨_, _, next_swap hs hq₂, rfl, he, rfl⟩
  · obtain ⟨⟨q₂, out, pc₂⟩, hq₂, heq⟩ := Option.map_eq_some_iff.mp hstep
    cases heq
    rw [← hq] at hq₂
    exact Or.inr ⟨_, _, next_swap hs hq₂, rfl, he, rfl⟩
  · exact Or.inl ⟨hq, he, hs⟩
  · exact Or.inl ⟨hq, he, hs⟩
  · exact Or.inl ⟨hq, he, hs⟩
  · exact Or.inl ⟨hq, he, hs⟩

/-- Seen from its queue, app6 is one emplacing and one swapping thread. -/
theorem simulates_threads :
    Simulation (sender (lockeFree UPtr) fds) (threads Unit UPtr) QueueView where
  init s hs := by
    cases hs
    exact ⟨Threads.start Unit UPtr, rfl, rfl, rfl, rfl⟩
  step s a t q hv h := by
    cases a with
    | run data => exact queueView_run hv h
    | poll => exact queueView_poll hv h

/-- The manager's thread of app6 is never stuck. -/
theorem run_enabled (h : (sender (lockeFree UPtr) fds).Reachable s) (data : ℤ) :
    ∃ t, s.runImpl data = some t := by
  obtain ⟨q, hq, hv⟩ := simulates_threads.reachable h
  cases hrun : s.run with
  | makeUnique => simp [runImpl, hrun]
  | incTx => simp [runImpl, hrun]
  | fire pc => simp [runImpl, hrun]
  | emplace pc =>
    have he : q.emplace () = some pc := by rw [hv.emplace, hrun]; rfl
    obtain ⟨q₁, pc', hstep⟩ := (Threads.inv_of_reachable hq).emplaceBack_enabled he
    rw [hv.queue] at hstep
    rw [runImpl, hrun]
    exact ⟨_, congrArg (Option.map _) hstep⟩

/-- The poller of app6 is never stuck in `swap`. -/
theorem swap_enabled (h : (sender (lockeFree UPtr) fds).Reachable s) {pc : SwapPc}
    {es : List UPtr} (hpoll : s.poll = .swap pc es) : ∃ t, s.pollImpl = some t := by
  obtain ⟨q, hq, hv⟩ := simulates_threads.reachable h
  have hs : q.swap = some pc := by rw [hv.swap, hpoll]; rfl
  obtain ⟨q₁, out, pc', hq₁⟩ := (Threads.inv_of_reachable hq).swap_enabled hs
  rw [hv.queue] at hq₁
  have hstep : (lockeFree UPtr).swap s.txQueue pc es = some (q₁, es ++ out, pc') :=
    congrArg (Option.map _) hq₁
  rw [pollImpl, hpoll]
  exact ⟨_, congrArg (Option.map _) hstep⟩

end Sender

end EventManager.App6
