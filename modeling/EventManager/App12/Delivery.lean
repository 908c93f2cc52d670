import EventManager.App12.EventRouter
import EventManager.Lib.Fifo

/-!
# End-to-end delivery in app12

For two different managers `p` and `c` the program implements a channel from `p` to `c`
for the events of the types that `c` registered for (`Program.simulates_fifo`).  What is
on the way is, in this order, the copies that the router has still to hand to `c` in its
innermost loop, the produced events that it has still to look at, the events that
`Produce` has collected, and the queue of `p`.
-/

namespace EventManager.App12

open Steps

namespace Program

variable {ι : Type} [DecidableEq ι] (app : Program ι)

/-- The manager `c` registered for the type of the event. -/
def Wants (c : ι) (e : Event) : Prop := e.type ∈ app.willConsume c

instance (c : ι) : DecidablePred (app.Wants c) := fun e =>
  inferInstanceAs (Decidable (e.type ∈ app.willConsume c))

/-- The events that `p` has put into its queue and that `c` registered for, in order. -/
def emplacedFor (s : System ι) (p c : ι) : List Event :=
  (s.managers p).emplaced.filter (app.Wants c)

/-- The events of `p` that `c` has consumed, in order. -/
def consumedFrom (s : System ι) (p c : ι) : List Event :=
  ((s.inboxes c).consumed.filter (fun x => x.1 = p)).map Prod.snd

/-- The events of the queue of `p` that have not been collected by `Produce`: between
`front` and `pop` the first slot is spent. -/
def queued (s : System ι) (p : ι) : List Event :=
  match producing p s.router with
  | some (.pop _) => (s.managers p).txQueue.tail
  | _ => (s.managers p).txQueue

/-- The events of `p` for `c` that the router holds. -/
def held (r : RouterPc ι) (p c : ι) : List Event :=
  match r with
  | .produce p' pc _ => if p' = p then pc.events.filter (app.Wants c) else []
  | .events p' es _ => if p' = p then es.filter (app.Wants c) else []
  | .consumers p' e cs es _ =>
    if p' = p then List.replicate (cs.count c) e ++ es.filter (app.Wants c) else []
  | _ => []

/-- The events on the way from `p` to `c`. -/
def onWay (s : System ι) (p c : ι) : List Event :=
  app.held s.router p c ++ (queued s p).filter (app.Wants c)

variable {app}

/-! ### Steps of the managers -/

lemma runImpl_logs (capacity : ℕ) (event : ℕ → Event) (m : Manager) :
    ((m.runImpl capacity event).txQueue = m.txQueue ∧
      (m.runImpl capacity event).emplaced = m.emplaced) ∨
    ∃ e, (m.runImpl capacity event).txQueue = m.txQueue ++ [e] ∧
      (m.runImpl capacity event).emplaced = m.emplaced ++ [e] := by
  simp only [Manager.runImpl]
  split
  · split
    · exact Or.inr ⟨_, rfl, rfl⟩
    · exact Or.inl ⟨rfl, rfl⟩
  · exact Or.inl ⟨rfl, rfl⟩
  · exact Or.inl ⟨rfl, rfl⟩
  · exact Or.inl ⟨rfl, rfl⟩

lemma queued_run_of_append (s : System ι) {p : ι} {m' : Manager} {e : Event}
    (hq : m'.txQueue = (s.managers p).txQueue ++ [e])
    (hne : ∀ es, producing p s.router = some (.pop es) → (s.managers p).txQueue ≠ []) :
    queued { s with managers := Function.update s.managers p m' } p = queued s p ++ [e] := by
  simp only [queued]
  split
  · rename_i es hes
    simp only [Function.update_self, hq]
    exact List.tail_append_of_ne_nil (hne es hes)
  · simp only [Function.update_self, hq]

lemma queued_run_of_ne (s : System ι) {p m : ι} (m' : Manager) (hm : m ≠ p) :
    queued { s with managers := Function.update s.managers m m' } p = queued s p := by
  simp [queued, Function.update_of_ne (Ne.symm hm)]

lemma effect_run {s : System ι} (p c m : ι)
    (hne : ∀ es, producing p s.router = some (.pop es) → (s.managers p).txQueue ≠ [])
    (capacity : ℕ) (event : ℕ → Event) :
    Fifo.Effect (app.emplacedFor · p c) (consumedFrom · p c) (app.onWay · p c) s
      { s with managers :=
        Function.update s.managers m ((s.managers m).runImpl capacity event) } := by
  by_cases hm : m = p
  · subst hm
    rcases runImpl_logs capacity event (s.managers m) with ⟨hq, hlog⟩ | ⟨e, hq, hlog⟩
    · refine .stay ?_ rfl ?_
      · simp [emplacedFor, hlog]
      · simp [onWay, queued, hq]
    · have hqueue := queued_run_of_append s hq hne
      by_cases hw : app.Wants c e
      · refine .send e ?_ rfl ?_
        · simp [emplacedFor, hlog, hw]
        · simp [onWay, hqueue, hw]
      · refine .stay ?_ rfl ?_
        · simp [emplacedFor, hlog, hw]
        · simp [onWay, hqueue, hw]
  · refine .stay ?_ rfl ?_
    · simp [emplacedFor, Function.update_of_ne (Ne.symm hm)]
    · simp [onWay, queued_run_of_ne s _ hm]

/-! ### Steps of the router -/

/-- `Produce` takes the events out of the queue in order: what it has collected, followed
by what it has not, does not change. -/
lemma produce_collects {m m' : Manager} {pc : ProducePc} {r : ProducePc ⊕ List Event}
    (h : m.produce pc = some (m', r)) :
    m'.emplaced = m.emplaced ∧
    (r.elim ProducePc.events id) ++
        (match r with | .inl (.pop _) => m'.txQueue.tail | _ => m'.txQueue) =
      pc.events ++ (match pc with | .pop _ => m.txQueue.tail | _ => m.txQueue) := by
  rcases Manager.produce_cases h with
    ⟨cpc, ev', cpc', rfl, -, rfl, ⟨c, -, rfl⟩ | ⟨-, rfl⟩⟩ | ⟨es, rfl, -, rfl, rfl⟩ |
    ⟨es, rfl, -, rfl, rfl⟩ | ⟨es, e, q, rfl, hq, rfl, rfl⟩ | ⟨es, e, q, rfl, hq, rfl, rfl⟩
  · exact ⟨rfl, rfl⟩
  · exact ⟨rfl, rfl⟩
  · exact ⟨rfl, rfl⟩
  · exact ⟨rfl, rfl⟩
  · exact ⟨rfl, by simp [ProducePc.events, hq]⟩
  · exact ⟨rfl, by simp [ProducePc.events, hq]⟩

/-- A step of the router hands at most one event of `p` to `c`, the oldest one that is on
the way. -/
lemma effect_route (happ : app.WellFormed) {s t : System ι} {p c : ι} (hpc : p ≠ c)
    (h : app.Routes s t) :
    Fifo.Effect (app.emplacedFor · p c) (consumedFrom · p c) (app.onWay · p c) s t := by
  cases h with
  | wait ready hr =>
    exact .stay rfl rfl (by simp [onWay, held, queued, producing, hr])
  | leave hr => exact .stay rfl rfl (by simp [onWay, held, queued, producing, hr])
  | unknown fd rest hr => exact .stay rfl rfl (by simp [onWay, held, queued, producing, hr])
  | callProduce fd rest p' hr hp =>
    refine .stay rfl rfl ?_
    by_cases hp' : p' = p <;>
      simp [onWay, held, queued, producing, hr, hp', ProducePc.events]
  | produce p' pc pc' rest m' hr hm =>
    obtain ⟨hlog, hcat⟩ := produce_collects hm
    by_cases hp' : p' = p
    · subst hp'
      refine .stay (by simp [emplacedFor, hlog]) rfl ?_
      have hfilter := congrArg (List.filter (app.Wants c)) hcat
      simp only [Sum.elim_inl, List.filter_append] at hfilter
      simp only [onWay, held, queued, producing, hr, if_true, Function.update_self]
      convert hfilter using 3
      · cases pc' <;> rfl
      · cases pc <;> rfl
    · refine .stay ?_ rfl ?_
      · simp [emplacedFor, Function.update_of_ne (Ne.symm hp')]
      · simp [onWay, held, queued, producing, hr, hp', Function.update_of_ne (Ne.symm hp')]
  | produced p' pc rest m' es hr hm =>
    obtain ⟨hlog, hcat⟩ := produce_collects hm
    by_cases hp' : p' = p
    · subst hp'
      refine .stay (by simp [emplacedFor, hlog]) rfl ?_
      have hfilter := congrArg (List.filter (app.Wants c)) hcat
      simp only [Sum.elim_inr, id, List.filter_append] at hfilter
      simp only [onWay, held, queued, producing, hr, if_true, Function.update_self]
      convert hfilter using 3
      cases pc <;> rfl
    · refine .stay ?_ rfl ?_
      · simp [emplacedFor, Function.update_of_ne (Ne.symm hp')]
      · simp [onWay, held, queued, producing, hr, hp', Function.update_of_ne (Ne.symm hp')]
  | endEvents p' rest hr =>
    refine .stay rfl rfl ?_
    simp [onWay, held, queued, producing, hr]
  | nextEvent p' e es rest hr =>
    refine .stay rfl rfl ?_
    -- the consumers of the type name `c` once if it wants the event
    have hcount := happ.count_consumers c e.type
    by_cases hw : e.type ∈ app.willConsume c
    · rw [if_pos hw] at hcount
      have hwants : app.Wants c e := hw
      by_cases hp' : p' = p <;>
        simp [onWay, held, queued, producing, hr, hp', hcount, hwants]
    · rw [if_neg hw] at hcount
      have hwants : ¬ app.Wants c e := hw
      by_cases hp' : p' = p <;>
        simp [onWay, held, queued, producing, hr, hp', hcount, hwants]
  | endConsumers p' e es rest hr =>
    refine .stay rfl rfl ?_
    by_cases hp' : p' = p <;> simp [onWay, held, queued, producing, hr, hp']
  | skip p' e c' cs es rest hr hid =>
    refine .stay rfl rfl ?_
    obtain rfl : c' = p' := happ.autoId_injective hid
    by_cases hp' : c' = p
    · have hc : c' ≠ c := by rw [hp']; exact hpc
      simp [onWay, held, queued, producing, hr, hp', hpc]
    · simp [onWay, held, queued, producing, hr, hp']
  | deliver p' e c' cs es rest hr hid =>
    by_cases hp' : p' = p
    · by_cases hc : c' = c
      · subst hp'; subst hc
        refine .receive e rfl ?_ ?_
        · simp [consumedFrom, consume]
        · simp [onWay, held, queued, producing, hr, List.replicate_succ]
      · refine .stay rfl ?_ ?_
        · simp [consumedFrom, consume, Function.update_of_ne (Ne.symm hc)]
        · simp [onWay, held, queued, producing, hr, hp', hc]
    · refine .stay rfl ?_ ?_
      · by_cases hc : c' = c
        · subst hc; simp [consumedFrom, consume, hp']
        · simp [consumedFrom, consume, Function.update_of_ne (Ne.symm hc)]
      · simp [onWay, held, queued, producing, hr, hp']

/-! ### The channel between two managers -/

/-- From `p` to `c` the program is a channel. -/
theorem simulates_fifo (happ : app.WellFormed) {p c : ι} (hpc : p ≠ c) :
    Simulation app.system (Fifo.machine Event) fun s f => app.system.Reachable s ∧
      Fifo.View (app.emplacedFor · p c) (consumedFrom · p c) (app.onWay · p c) s f := by
  refine Fifo.simulation ?_ ?_
  · intro s hs
    obtain rfl : s = app.start := hs
    exact ⟨rfl, rfl, rfl⟩
  · intro s a t hs _ h
    cases a with
    | run m =>
      obtain rfl := Option.some.inj h
      refine effect_run p c m (fun es hes => ?_) _ _
      obtain ⟨_, hch, rfl⟩ := (simulates_channel happ.alive p).reachable hs
      exact Channel.txQueue_ne_nil_of_popping hch ⟨es, Or.inr hes⟩
    | route ready => exact effect_route happ hpc (routes_of_waitAndRoute happ.alive h)

lemma consumedFrom_self (happ : app.WellFormed) {s : System ι}
    (h : app.system.Reachable s) (c : ι) : ∀ x ∈ (s.inboxes c).consumed, x.1 ≠ c := by
  refine h.invariant (I := fun s => ∀ x ∈ (s.inboxes c).consumed, x.1 ≠ c) ?_ ?_
  · intro s hs
    obtain rfl : s = app.start := hs
    simp [start]
  · intro s a t hI h
    cases a with
    | run m =>
      obtain rfl := Option.some.inj h
      exact hI
    | route ready =>
      cases routes_of_waitAndRoute happ.alive h with
      | deliver p e c' cs es rest hr hid =>
        by_cases hc : c' = c
        · subst hc
          intro x hx
          simp only [consume, Function.update_self, List.mem_append,
            List.mem_singleton] at hx
          rcases hx with hx | rfl
          · exact hI x hx
          · exact fun hp => hid (by rw [← hp])
        · simpa [consume, Function.update_of_ne (Ne.symm hc)] using hI
      | _ => exact hI

end Program

/-- **End-to-end delivery.**  In every reachable state of a program of the shape of
app12, for two different managers `p` and `c`, the events of `p` that `c` has consumed
are a prefix of the events that `p` put into its queue and that `c` registered for; no
manager consumes an event of its own; and when the router is outside of `WaitAndRoute`
and the queue of `p` is empty, `c` has consumed all of them. -/
theorem end_to_end_delivery {ι : Type} [DecidableEq ι] {app : Program ι}
    (happ : app.WellFormed) {s : System ι} (h : app.system.Reachable s) :
    (∀ p c, p ≠ c → Program.consumedFrom s p c <+: app.emplacedFor s p c) ∧
    (∀ c, ∀ x ∈ (s.inboxes c).consumed, x.1 ≠ c) ∧
    (s.router = .outside → ∀ p c, p ≠ c → (s.managers p).txQueue = [] →
      Program.consumedFrom s p c = app.emplacedFor s p c) := by
  refine ⟨fun p c hpc => ?_, Program.consumedFrom_self happ h, fun hr p c hpc hq => ?_⟩
  · exact Fifo.reachable_prefix (Program.simulates_fifo happ hpc) h
  · refine Fifo.reachable_eq (Program.simulates_fifo happ hpc) h ?_
    simp [Program.onWay, Program.held, Program.queued, Program.producing, hr, hq]

/-- Descriptors for the three pipes of `app12.cpp`. -/
def sampleFds : Name → ℤ × ℤ
  | .managerA => (5, 6)
  | .managerB => (8, 9)
  | .managerC => (11, 12)

/-- A run of `app12.cpp`: the first event of `ManagerA` reaches `ManagerC`, the consumer
of its type. -/
theorem end_to_end_delivery_app12 :
    ∃ s, (app12 sampleFds).system.Reachable s ∧
      Program.consumedFrom s .managerA .managerC = [.statusEvent 0 statusOk] ∧
      Program.consumedFrom s .managerA .managerC =
        (app12 sampleFds).emplacedFor s .managerA .managerC := by
  have h₀ : (app12 sampleFds).system.Reachable (app12 sampleFds).start :=
    .of_init rfl
  obtain ⟨s, hs, hr, hq, hc⟩ : ∃ s, (app12 sampleFds).system.exec
      (app12 sampleFds).start
      (List.replicate 5 (.run .managerA) ++ List.replicate 14 (.route [5])) = some s ∧
      s.router = .outside ∧ (s.managers .managerA).txQueue = [] ∧
      Program.consumedFrom s .managerA .managerC = [.statusEvent 0 statusOk] :=
    ⟨_, rfl, rfl, rfl, rfl⟩
  have hdel := (end_to_end_delivery (app12_wellFormed _) (h₀.exec hs)).2.2
  exact ⟨s, h₀.exec hs, hc, hdel hr .managerA .managerC (by decide) hq⟩

end EventManager.App12
