import EventManager.Lib.Machine

/-!
# The first-in first-out channel

What a lossless channel is for, as a machine: what was sent and not yet received waits,
and is received in the order in which it was sent.  A machine with a log of what went in
and a log of what came out implements the channel as soon as one can name, for every
state, what is still on the way (`Fifo.simulation`); its outgoing log is then a prefix of
its incoming log, and all of it when nothing is on the way.
-/

namespace Steps

/-- A channel: what has been received, and what is still on the way.  The sequence of
what was sent is their concatenation, so a channel cannot lose, repeat or reorder. -/
structure Fifo (α : Type*) where
  /-- What has been received, oldest first. -/
  received : List α
  /-- What has been sent and not been received, oldest first. -/
  pending : List α

namespace Fifo

variable {α σ κ : Type*}

/-- What has been sent. -/
def sent (f : Fifo α) : List α := f.received ++ f.pending

/-- The actions of a channel. -/
inductive Action (α : Type*)
  | send (a : α)
  | receive

/-- The channel as a machine. -/
def machine (α : Type*) : Machine (Fifo α) (Action α) where
  init f := f = ⟨[], []⟩
  next f
    | .send a => some ⟨f.received, f.pending ++ [a]⟩
    | .receive =>
      match f.pending with
      | [] => none
      | a :: rest => some ⟨f.received ++ [a], rest⟩

lemma received_prefix (f : Fifo α) : f.received <+: f.sent := List.prefix_append _ _

lemma received_eq_sent {f : Fifo α} (h : f.pending = []) : f.received = f.sent := by
  simp [sent, h]

/-! ### Machines that implement the channel -/

section

variable (inLog outLog onWay : σ → List α)

/-- The state `s` of a machine with two logs looks like the channel `f`. -/
structure View (s : σ) (f : Fifo α) : Prop where
  received : f.received = outLog s
  pending : f.pending = onWay s
  sent : f.sent = inLog s

/-- The effect that a step may have on the two logs and on what is on the way. -/
inductive Effect (s s' : σ) : Prop
  | stay (hin : inLog s' = inLog s) (hout : outLog s' = outLog s)
      (hway : onWay s' = onWay s)
  | send (a : α) (hin : inLog s' = inLog s ++ [a]) (hout : outLog s' = outLog s)
      (hway : onWay s' = onWay s ++ [a])
  | receive (a : α) (hin : inLog s' = inLog s) (hout : outLog s' = outLog s ++ [a])
      (hway : onWay s = a :: onWay s')

variable {inLog outLog onWay} in
lemma Effect.of_send {s s' : σ} {l : List α} (hl : l.length ≤ 1)
    (hin : inLog s' = inLog s ++ l) (hout : outLog s' = outLog s)
    (hway : onWay s' = onWay s ++ l) : Effect inLog outLog onWay s s' := by
  match l with
  | [] => exact .stay (by rw [hin, List.append_nil]) hout (by rw [hway, List.append_nil])
  | [a] => exact .send a hin hout hway

variable {inLog outLog onWay} in
lemma Effect.of_receive {s s' : σ} {l : List α} (hl : l.length ≤ 1)
    (hin : inLog s' = inLog s) (hout : outLog s' = outLog s ++ l)
    (hway : onWay s = l ++ onWay s') : Effect inLog outLog onWay s s' := by
  match l with
  | [] => exact .stay hin (by rw [hout, List.append_nil]) hway.symm
  | [a] => exact .receive a hin hout hway

variable {inLog outLog onWay} in
lemma View.append {s : σ} {f : Fifo α} (h : View inLog outLog onWay s f) :
    outLog s ++ onWay s = inLog s := by
  rw [← h.received, ← h.pending, ← h.sent]
  rfl

/-- An effect on the logs is a step of the channel, or none. -/
lemma View.step {s s' : σ} {f : Fifo α} (h : View inLog outLog onWay s f)
    (he : Effect inLog outLog onWay s s') :
    View inLog outLog onWay s' f ∨
      ∃ b f', (machine α).next f b = some f' ∧ View inLog outLog onWay s' f' := by
  obtain ⟨hr, hp, hs⟩ := h
  have hcat : outLog s ++ onWay s = inLog s := View.append ⟨hr, hp, hs⟩
  cases he with
  | stay hin hout hway =>
    exact Or.inl ⟨by rw [hr, hout], by rw [hp, hway], by rw [hs, hin]⟩
  | send a hin hout hway =>
    refine Or.inr ⟨.send a, ⟨f.received, f.pending ++ [a]⟩, rfl, ?_, ?_, ?_⟩
    · rw [hr, hout]
    · rw [hp, hway]
    · rw [hin, ← hcat]; simp [Fifo.sent, hr, hp]
  | receive a hin hout hway =>
    refine Or.inr ⟨.receive, ⟨f.received ++ [a], onWay s'⟩, ?_, ?_, rfl, ?_⟩
    · simp [machine, hp, hway]
    · rw [hr, hout]
    · rw [hin, ← hcat, hway]; simp [Fifo.sent, hr]

variable {inLog outLog onWay}

/-- A machine whose steps have no other effects on its logs implements the channel. -/
theorem simulation {M : Machine σ κ}
    (hinit : ∀ s, M.init s → inLog s = [] ∧ outLog s = [] ∧ onWay s = [])
    (hstep : ∀ s a s', M.Reachable s → outLog s ++ onWay s = inLog s →
      M.next s a = some s' → Effect inLog outLog onWay s s') :
    Simulation M (machine α) fun s f => M.Reachable s ∧ View inLog outLog onWay s f where
  init s hs := by
    obtain ⟨hin, hout, hway⟩ := hinit s hs
    exact ⟨⟨[], []⟩, rfl, .of_init hs, hout.symm, hway.symm, hin.symm⟩
  step s a s' f hR ha := by
    obtain ⟨hs, hv⟩ := hR
    rcases hv.step inLog outLog onWay (hstep s a s' hs hv.append ha) with
      hv' | ⟨b, f', hb, hv'⟩
    · exact Or.inl ⟨hs.next ha, hv'⟩
    · exact Or.inr ⟨b, f', hb, hs.next ha, hv'⟩

/-- What came out, followed by what is on the way, is what went in. -/
theorem reachable_append {M : Machine σ κ}
    (hsim : Simulation M (machine α) fun s f =>
      M.Reachable s ∧ View inLog outLog onWay s f)
    {s : σ} (hs : M.Reachable s) : outLog s ++ onWay s = inLog s := by
  obtain ⟨f, -, -, hv⟩ := hsim.reachable hs
  exact hv.append

/-- What came out is a prefix of what went in. -/
theorem reachable_prefix {M : Machine σ κ}
    (hsim : Simulation M (machine α) fun s f =>
      M.Reachable s ∧ View inLog outLog onWay s f)
    {s : σ} (hs : M.Reachable s) : outLog s <+: inLog s := by
  obtain ⟨f, -, -, hv⟩ := hsim.reachable hs
  rw [← hv.received, ← hv.sent]
  exact f.received_prefix

/-- With nothing on the way, all that went in has come out. -/
theorem reachable_eq {M : Machine σ κ}
    (hsim : Simulation M (machine α) fun s f =>
      M.Reachable s ∧ View inLog outLog onWay s f)
    {s : σ} (hs : M.Reachable s) (hway : onWay s = []) : outLog s = inLog s := by
  obtain ⟨f, -, -, hv⟩ := hsim.reachable hs
  rw [← hv.received, ← hv.sent]
  exact received_eq_sent (hv.pending.trans hway)

end

end Fifo

end Steps
