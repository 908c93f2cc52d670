import EventManager.App12.Ring

/-!
# Delivery and wake-ups over the SPSCQueue

The results about the program over lists are results about the program over the `SPSCQueue`:
the delivery of the events (`withRing_delivery`) and the wake-ups of the router
(`withRing_readable`).  And no thread gets stuck at a queue: the router never follows a null
pointer and never pops an empty queue (`withRing_safe`).
-/

namespace EventManager.App12.Program

open Steps SPSCQueue

variable {ι : Type} [DecidableEq ι] {app : Program ι}

/-- The state of the program over the `SPSCQueue`. -/
abbrev RingState (ι : Type) : Type :=
  Client.ImplState (ι → SPSCQueue.Client (Option Event)) (ι → PipedEvent)
    (ι × Side × Op (Option Event)) (ι × Pc (Option Event)) (ThreadState ι)

namespace RingState

/-- The thread of a manager. -/
def run (s : RingState ι) (m : ι) : RunThread := s.threads (.manager m)

/-- The router thread. -/
def router (s : RingState ι) : RouterThread ι := s.threads .router

/-- The queue of a manager. -/
def txQueue (s : RingState ι) (m : ι) : SPSCQueue (Option Event) := (s.impl m).queue

end RingState

/-- The queues `q` are new ones for the capacities of the managers. -/
structure Queues (app : Program ι) (q : ι → SPSCQueue (Option Event)) : Prop where
  pos : ∀ m, 0 < app.capacity m
  lt : ∀ m, app.capacity m < sizeMax
  create : ∀ m, create (Option Event) 8 (app.capacity m) = some (q m)

variable {q : ι → SPSCQueue (Option Event)}

/-- What relates the queues of the managers to the lists that they hold. -/
def QueuesRel (app : Program ι) : (ι → SPSCQueue.Client (Option Event)) →
    Impl.Phases (Thread ι) (ι × Side × Op (Option Event)) (Res (Option Event))
      (ι × Pc (Option Event)) → (ι → List (Option Event)) → Prop :=
  Impl.Family owner fun m s ph xs => Inv (app.capacity m) s (ph .producer) (ph .consumer) xs

lemma Queues.refines (hq : app.Queues q) :
    (Impl.family (fun m => threads (q m)) owner).Refines
      (Object.family Side fun m => boundedFifo (Option Event) (app.capacity m))
      app.QueuesRel := by
  refine Impl.Refines.family owner fun m => ?_
  have hm := SPSCQueue.refines (hq.lt m) (hq.create m)
  rwa [Nat.max_eq_right (hq.pos m)] at hm

/-! ### What the program over lists shows -/

omit [DecidableEq ι] in
lemma resume_inboxes (l : RouterThread ι) (res : Res (Option Event)) :
    (l.resume res).inboxes = l.inboxes := by
  simp only [RouterThread.resume]
  split <;> rfl

lemma resume_producing {l : RouterThread ι} {m : ι}
    (h : producing m l.pc = none) (res : Res (Option Event)) :
    producing m (l.resume res).pc = none := by
  simp only [RouterThread.resume]
  split
  all_goals simp_all [producing]

/-- The program over the `SPSCQueue` looks like the program over lists. -/
structure RingLooks (s : RingState ι) (a : System ι) : Prop where
  managers : ∀ m, ∃ queue popped', a.managers m = (s.run m).manager (s.shared m) queue popped' ∧
    ((s.txQueue m).writeIdx = (s.txQueue m).readIdx ↔ queue = [])
  router : (∀ p es rest, s.router.pc ≠ .produce p (.empty es) rest) → a.router = s.router.pc
  producing : ∀ m, producing m s.router.pc = none → producing m a.router = none
  inboxes : a.inboxes = s.router.inboxes

/-- `try_emplace` takes effect when it returns. -/
lemma ahead_manager {ph : Impl.Phases (Thread ι) (ι × Side × Op (Option Event))
      (Res (Option Event)) (ι × Pc (Option Event))} {s : RingState ι}
    {f : Client.State (ι → List (Option Event)) (ι → PipedEvent) (ThreadState ι)}
    (hv : Client.View app.client app.QueuesRel ph s f) (m : ι) :
    f.threads (.manager m) = s.run m := by
  rw [hv.threads]
  cases hph : ph (.manager m) with
  | none => rfl
  | some p =>
    obtain ⟨⟨d, u, op⟩, ⟨d', k⟩, done⟩ := p
    obtain ⟨op', hop, heq⟩ := Option.map_eq_some_iff.mp (hv.want _ _ _ _ hph)
    cases heq
    have hpart : Impl.part owner ph m .producer = some (op, k, done) := by
      simp [Impl.part, owner, hph]
    have hprod := (hv.rel.rel m).producing op k done hpart
    simp only [RunThread.want] at hop
    split at hop
    · cases hop
      cases hprod <;> rfl
    · cases hop

/-- In every reachable state the program looks like the program over lists. -/
theorem withRing_refines (hq : app.Queues q) {s : RingState ι}
    (h : (app.withRing q).Reachable s) : ∃ a, app.system.Reachable a ∧ RingLooks s a := by
  obtain ⟨f, hf, ph, hv⟩ := (Client.simulation hq.refines).reachable h
  obtain ⟨a, ha, hlooks⟩ := simulation_fifo.reachable hf
  -- the router may have an answer that has not returned
  have hrouter : (f.threads .router : RouterThread ι) = s.router ∨
      ∃ p es rest res, s.router.pc = .produce p (.empty es) rest ∧
        (f.threads .router : RouterThread ι) = s.router.resume res := by
    rw [hv.threads]
    cases hph : ph .router with
    | none => exact Or.inl rfl
    | some p =>
      obtain ⟨⟨d, u, op⟩, ⟨d', k⟩, done⟩ := p
      cases done with
      | none => exact Or.inl rfl
      | some res =>
        have hwant : s.router.want = some (d, u, op) := hv.want _ _ _ _ hph
        have hcons : u = .consumer → Consuming (s.impl d) op k (some res) := by
          rintro rfl
          exact (hv.rel.rel d).consuming op k (some res) (by simp [Impl.part, owner, hph])
        simp only [RouterThread.want] at hwant
        split at hwant
        · exact Or.inr ⟨_, _, _, res, ‹_›, rfl⟩
        · -- `front` and `move` take effect when they return
          split at hwant <;> cases hwant <;> cases hcons rfl
        · cases hwant
          cases hcons rfl
        · cases hwant
  refine ⟨a, ha, fun m => ?_, fun hpc => ?_, fun m hm => ?_, ?_⟩
  · obtain ⟨queue, popped', hm, hholds⟩ := hlooks.managers m
    rw [ahead_manager hv, hv.shared] at hm
    refine ⟨queue, popped', hm, ?_⟩
    rw [RingState.txQueue, (hv.rel.rel m).ring.writeIdx_eq_readIdx_iff,
      ← List.length_eq_zero_iff, hholds.length_eq, List.length_eq_zero_iff]
  · rw [hlooks.router]
    rcases hrouter with heq | ⟨p, es, rest, res, hpc', -⟩
    · rw [heq]
    · exact absurd hpc' (hpc p es rest)
  · rw [hlooks.router]
    rcases hrouter with heq | ⟨p, es, rest, res, -, heq⟩
    · rwa [heq]
    · rw [heq]
      exact resume_producing hm res
  · rw [hlooks.inboxes]
    rcases hrouter with heq | ⟨p, es, rest, res, -, heq⟩
    · rw [heq]
    · rw [heq, resume_inboxes]

/-! ### Delivery and wake-ups -/

/-- The events that the thread of `p` has put into its queue and that `c` registered for, in
order. -/
def sent (app : Program ι) (s : RingState ι) (p c : ι) : List Event :=
  (s.run p).emplaced.filter (app.Wants c)

/-- The events of `p` that `c` has consumed, in order. -/
def received (s : RingState ι) (p c : ι) : List Event :=
  ((s.router.inboxes c).consumed.filter (fun x => x.1 = p)).map Prod.snd

lemma RingLooks.delivery {s : RingState ι} {a : System ι} (h : RingLooks s a) (p c : ι) :
    consumedFrom a p c = received s p c ∧ app.emplacedFor a p c = app.sent s p c := by
  obtain ⟨queue, popped', hp, -⟩ := h.managers p
  exact ⟨by rw [consumedFrom, h.inboxes, received], by rw [emplacedFor, hp]; rfl⟩

/-- **End-to-end delivery over the `SPSCQueue`.**  Whatever the order in which the loads, the
stores and the accesses to the slots of the queues interleave with everything else, the events
of `p` that another manager `c` has consumed are a prefix of those that `try_emplace` of `p`
has taken and that `c` registered for; no manager consumes an event of its own; and when the
router is outside of `WaitAndRoute` and the indices of the queue of `p` are equal, `c` has
consumed all of them. -/
theorem withRing_delivery (happ : app.WellFormed) (hq : app.Queues q) {s : RingState ι}
    (h : (app.withRing q).Reachable s) :
    (∀ p c, p ≠ c → received s p c <+: app.sent s p c) ∧
    (∀ c, ∀ x ∈ (s.router.inboxes c).consumed, x.1 ≠ c) ∧
    (s.router.pc = .outside → ∀ p c, p ≠ c →
      (s.txQueue p).writeIdx = (s.txQueue p).readIdx → received s p c = app.sent s p c) := by
  obtain ⟨a, ha, hlooks⟩ := withRing_refines hq h
  refine ⟨fun p c hpc => ?_, fun c => ?_, fun hout p c hpc hidx => ?_⟩
  · obtain ⟨hrec, hsent⟩ := hlooks.delivery p c
    rw [← hrec, ← hsent]
    exact Fifo.reachable_prefix (simulates_fifo happ hpc) ha
  · rw [← hlooks.inboxes]
    exact consumedFrom_self happ ha c
  · obtain ⟨hrec, hsent⟩ := hlooks.delivery p c
    obtain ⟨queue, popped', hp, hiff⟩ := hlooks.managers p
    have hr : a.router = .outside := by
      rw [hlooks.router (by simp [hout]), hout]
    rw [← hrec, ← hsent]
    refine Fifo.reachable_eq (simulates_fifo happ hpc) ha ?_
    simp [onWay, held, queued, producing, hr, hp, RunThread.manager, hiff.mp hidx]

/-- **No lost wake-up over the `SPSCQueue`.**  When the indices of a manager's queue differ, the
manager is not between a successful `try_emplace` and the return of `Fire`, and the router is
not inside its `Produce`, then its pipe is readable. -/
theorem withRing_readable (halive : ∀ m, app.alive m = true) (hq : app.Queues q) {p : ι}
    (hfds : (app.fds p).1 ≠ 0) {s : RingState ι} (h : (app.withRing q).Reachable s)
    (hne : (s.txQueue p).writeIdx ≠ (s.txQueue p).readIdx) (hm : ¬ (s.run p).pc.Signalling)
    (hp : producing p s.router.pc = none) : (s.shared p).Readable := by
  obtain ⟨a, ha, hlooks⟩ := withRing_refines hq h
  obtain ⟨queue, popped', hmanager, hiff⟩ := hlooks.managers p
  have hread := readable_of_waiting halive hfds ha (p := p)
  rw [hmanager] at hread
  exact hread (fun hnil => hne (hiff.mpr hnil)) hm (hlooks.producing p hp)

/-! ### No thread gets stuck at a queue -/

/-- The router is about to follow the pointer that `front` of the queue of `p` has returned, or
to pop the queue. -/
def Following (l : RouterThread ι) (p : ι) : Prop :=
  ∃ es rest, (l.pc = .produce p (.front es) rest ∧ l.fronted = true) ∨
    l.pc = .produce p (.pop es) rest

/-- The router has a pointer where it follows one. -/
structure Pointers (l : RouterThread ι) (pointer : ι → Option ℕ) : Prop where
  fronted : l.fronted = true → ∃ p es rest, l.pc = .produce p (.front es) rest
  pointer : ∀ p, Following l p → (pointer p).isSome

/-- The router begins no iteration of `Produce` by a step that does not touch a queue. -/
lemma routerAct_produce {events events' : ι → PipedEvent} {l l' : RouterThread ι}
    {ready : List ℤ} (h : app.routerAct events l ready = some (events', l')) :
    l'.fronted = l.fronted ∧ (∀ p es rest, l.pc ≠ .produce p (.front es) rest) ∧
      ∀ p es rest, l'.pc ≠ .produce p (.front es) rest ∧ l'.pc ≠ .produce p (.pop es) rest := by
  simp only [routerAct] at h
  split at h
  · rename_i p cpc rest hpc
    obtain ⟨⟨ev, cpc'⟩, -, heq⟩ := Option.map_eq_some_iff.mp h
    cases heq
    refine ⟨rfl, by simp [hpc], fun p es rest => ?_⟩
    cases cpc' <;> simp
  · cases h
  · rename_i hnot
    obtain ⟨t, hwait, heq⟩ := Option.map_eq_some_iff.mp h
    cases heq
    obtain ⟨-, hload⟩ := waitAndRoute_congr app.start.managers hnot hwait
    refine ⟨rfl, fun p es rest => hnot p _ rest, fun p es rest => ⟨fun hr => ?_, fun hr => ?_⟩⟩
    · cases hload p _ rest hr
    · cases hload p _ rest hr

omit [DecidableEq ι] in
lemma Pointers.of_not_following {l : RouterThread ι} (hfronted : l.fronted = false)
    (hpop : ∀ p es rest, l.pc ≠ .produce p (.pop es) rest) (pointer : ι → Option ℕ) :
    Pointers l pointer := by
  refine ⟨by simp [hfronted], fun p hp => ?_⟩
  obtain ⟨es, rest, ⟨-, htrue⟩ | hpc⟩ := hp
  · simp [hfronted] at htrue
  · exact absurd hpc (hpop p es rest)

omit [DecidableEq ι] in
lemma Pointers.not_fronted {l : RouterThread ι} {pointer : ι → Option ℕ} (h : Pointers l pointer)
    (hpc : ∀ p es rest, l.pc ≠ .produce p (.front es) rest) : l.fronted = false := by
  by_contra hfronted
  obtain ⟨p, es, rest, hfront⟩ := h.fronted (by simpa using hfronted)
  exact hpc p es rest hfront

/-- An operation of the router on the queue of `p` returns `res`, and leaves the pointer
`o`. -/
lemma Pointers.resume {l : RouterThread ι} {pointer : ι → Option ℕ} (h : Pointers l pointer)
    {p : ι} {u : Side} {op : Op (Option Event)} {res : Res (Option Event)} {o : Option ℕ}
    (hwant : l.want = some (p, u, op)) (hfront : op = .front → res = .bool o.isSome)
    (hmove : op = .move → o = pointer p) (hpop : op = .pop → res = .unit) :
    Pointers (l.resume res) (Function.update pointer p o) := by
  simp only [RouterThread.want] at hwant
  split at hwant
  · rename_i p' es rest hpc
    have hfronted := h.not_fronted (by simp [hpc])
    rcases res with _ | (_ | _) | _ | (_ | _) <;>
      exact .of_not_following (by simp [RouterThread.resume, hpc, hfronted])
        (by simp [RouterThread.resume, hpc]) _
  · rename_i p' es rest hpc
    obtain ⟨rfl, rfl, hop⟩ : p' = p ∧ Side.consumer = u ∧
        (if l.fronted = true then Op.move else .front) = op := by simpa using hwant
    by_cases hfronted : l.fronted = true
    · -- the pointer is followed
      rw [if_pos hfronted] at hop
      obtain rfl := hmove hop.symm
      rw [Function.update_eq_self]
      have hsome := h.pointer p' ⟨es, rest, Or.inl ⟨hpc, hfronted⟩⟩
      obtain ⟨pc, fronted, inboxes⟩ := l
      obtain rfl : pc = _ := hpc
      obtain rfl : fronted = true := hfronted
      rcases res with _ | (_ | _) | _ | (_ | e)
      case elem.some =>
        refine ⟨by simp [RouterThread.resume], fun p hp => ?_⟩
        obtain ⟨es', rest', ⟨-, htrue⟩ | hpop⟩ := hp
        · cases htrue
        · cases hpop
          exact hsome
      all_goals exact h
    · rw [if_neg hfronted] at hop
      obtain rfl := hfront hop.symm
      have hfalse : l.fronted = false := by simpa using hfronted
      cases o with
      | none =>
        exact .of_not_following (by simp [RouterThread.resume, hpc, hfalse])
          (by simp [RouterThread.resume, hpc]) _
      | some i =>
        refine ⟨fun _ => ⟨p', es, rest, by simp [RouterThread.resume, hpc]⟩, fun p hp => ?_⟩
        obtain ⟨es', rest', ⟨hfront', -⟩ | hpop'⟩ := hp
        · have heq : p' = p ∧ es = es' ∧ rest = rest' := by
            simpa [RouterThread.resume, hpc] using hfront'
          simp [heq.1]
        · simp [RouterThread.resume, hpc] at hpop'
  · rename_i p' es rest hpc
    cases hwant
    obtain rfl := hpop rfl
    have hfronted := h.not_fronted (by simp [hpc])
    exact .of_not_following (by simp [RouterThread.resume, hpc, hfronted])
      (by simp [RouterThread.resume, hpc]) _
  · cases hwant

lemma Pointers.step {ph : Impl.Phases (Thread ι) (ι × Side × Op (Option Event))
      (Res (Option Event)) (ι × Pc (Option Event))} {s s' : RingState ι}
    {f : Client.State (ι → List (Option Event)) (ι → PipedEvent) (ThreadState ι)}
    {t : Thread ι} {choice : Bool} (hI : Pointers s.router (Client.pointer ∘ s.impl))
    (hv : Client.View app.client app.QueuesRel ph s f)
    (h : (app.withRing q).next s (.step t choice) = some s') :
    Pointers s'.router (Client.pointer ∘ s'.impl) := by
  simp only [withRing, Client.withImpl] at h
  split at h
  · cases h
  · rename_i op k hbusy
    obtain ⟨_, hfamily, rfl⟩ := Option.map_eq_some_iff.mp h
    obtain ⟨⟨c, r⟩, hstep, rfl⟩ := Option.map_eq_some_iff.mp hfamily
    obtain ⟨done, hph⟩ := hv.phase hbusy
    obtain ⟨d, u, op⟩ := op
    obtain ⟨d', k⟩ := k
    obtain ⟨hd, howner⟩ := hv.rel.named t _ hph
    obtain rfl : d' = d := hd
    obtain rfl : owner d' u = t := howner
    have hpart : Impl.part owner ph d' u = some (op, k, done) := by simp [Impl.part, hph]
    have hinv := hv.rel.rel d'
    have hpointer := step_pointer hstep
    have himpl : Client.pointer ∘ Function.update s.impl d' c =
        Function.update (Client.pointer ∘ s.impl) d' c.pointer := Function.comp_update ..
    cases u with
    | producer =>
      -- the pointer is not the business of the thread of the manager
      have hkeep : c.pointer = (s.impl d').pointer := by
        have hprod := hinv.producing op k done hpart
        rcases hpointer with ⟨hkeep, -⟩ | ⟨pc, rfl, -⟩ | ⟨pc, rfl, -⟩
        · exact hkeep
        · cases hprod
        · cases hprod
      have hne : (Thread.router : Thread ι) ≠ .manager d' := by simp
      rw [hkeep, show (s.impl d').pointer = (Client.pointer ∘ s.impl) d' from rfl,
        Function.update_eq_self] at himpl
      cases r with
      | inl k' =>
        show Pointers s.router (Client.pointer ∘ Function.update s.impl d' c)
        rw [himpl]
        exact hI
      | inr res =>
        show Pointers (Function.update s.threads (Thread.manager d')
          (app.client.resume (.manager d') (s.threads (.manager d')) res) .router)
          (Client.pointer ∘ Function.update s.impl d' c)
        rw [himpl, Function.update_of_ne hne]
        exact hI
    | consumer =>
      have hcons := hinv.consuming op k done hpart
      have hwant : s.router.want = some (d', .consumer, op) := hv.want _ _ _ _ hph
      cases r with
      | inl k' =>
        show Pointers s.router (Client.pointer ∘ Function.update s.impl d' c)
        rw [himpl]
        rcases hpointer with ⟨hkeep, -⟩ | ⟨pc, -, hr⟩ | ⟨pc, -, hr⟩
        · rw [hkeep, show (s.impl d').pointer = (Client.pointer ∘ s.impl) d' from rfl,
            Function.update_eq_self]
          exact hI
        · cases hr
        · cases hr
      | inr res =>
        show Pointers (Function.update s.threads Thread.router
          (RouterThread.resume s.router res) .router) (Client.pointer ∘ Function.update s.impl d' c)
        rw [himpl, Function.update_self]
        refine hI.resume hwant ?_ ?_ ?_
        · rintro rfl
          rcases hpointer with ⟨-, hnot⟩ | ⟨pc, -, hr⟩ | ⟨pc, hk, -⟩
          · cases hcons
            · exact absurd rfl ((hnot res rfl).1 _)
            · exact absurd rfl ((hnot res rfl).1 _)
          · exact Sum.inr.inj hr
          · obtain rfl : k = .pop pc := hk
            cases hcons
        · rintro rfl
          cases hcons
          rcases hpointer with ⟨hkeep, -⟩ | ⟨pc, hk, -⟩ | ⟨pc, hk, -⟩
          · exact hkeep
          · cases hk
          · cases hk
        · rintro rfl
          rcases hpointer with ⟨-, hnot⟩ | ⟨pc, hk, -⟩ | ⟨pc, -, hr⟩
          · cases hcons <;> exact absurd rfl ((hnot res rfl).2 _)
          · obtain rfl : k = .front pc := hk
            cases hcons
          · exact Sum.inr.inj hr

lemma pointers_of_reachable (hq : app.Queues q) {s : RingState ι}
    (h : (app.withRing q).Reachable s) : Pointers s.router (Client.pointer ∘ s.impl) := by
  refine h.invariant_of_reachable
    (I := fun (s : RingState ι) => Pointers s.router (Client.pointer ∘ s.impl))
    ?_ fun s act s' hs hI hstep => ?_
  · rintro s rfl
    refine ⟨fun h => ?_, fun p hp => ?_⟩
    · cases h
    · obtain ⟨es, rest, ⟨h, -⟩ | h⟩ := hp <;> cases h
  · cases act with
    | call t =>
      simp only [withRing, Client.withImpl] at hstep
      split at hstep
      · obtain ⟨op, -, hstep⟩ := Option.bind_eq_some_iff.mp hstep
        obtain ⟨k, -, rfl⟩ := Option.map_eq_some_iff.mp hstep
        exact hI
      · cases hstep
    | step t choice =>
      obtain ⟨f, -, ph, hv⟩ := (Client.simulation hq.refines).reachable hs
      exact hI.step hv hstep
    | act t b =>
      simp only [withRing, Client.withImpl] at hstep
      split at hstep
      · obtain ⟨⟨events, l'⟩, hact, rfl⟩ := Option.map_eq_some_iff.mp hstep
        cases t with
        | manager m =>
          have hne : (Thread.router : Thread ι) ≠ .manager m := by simp
          simpa only [RingState.router, Function.update_of_ne hne] using hI
        | router =>
          obtain ⟨hfronted, hnot, hpc⟩ := routerAct_produce hact
          simp only [RingState.router, Function.update_self]
          exact .of_not_following (hfronted.trans (hI.not_fronted hnot))
            (fun p es rest => (hpc p es rest).2) _
      · cases hstep

/-- **No thread gets stuck at a queue.**  A call in progress can go on; a thread that is to call
an operation may call it, which for the router means that it has a pointer where it follows
one; and between the test of a queue and its `pop` the queue is not empty, so that `front` has
not returned null and the assertion of `pop` holds. -/
theorem withRing_safe (halive : ∀ m, app.alive m = true) (hq : app.Queues q) {s : RingState ι}
    (h : (app.withRing q).Reachable s) :
    (∀ t op k choice, s.calls t = some (op, k) →
      ((Impl.family (fun m => threads (q m)) owner).step s.impl k choice).isSome) ∧
    (∀ t op, app.client.want t (s.threads t) = some op →
      ((Impl.family (fun m => threads (q m)) owner).call s.impl t op).isSome) ∧
    ∀ p es rest,
      s.router.pc = .produce p (.front es) rest ∨ s.router.pc = .produce p (.pop es) rest →
      (s.txQueue p).writeIdx ≠ (s.txQueue p).readIdx := by
  refine ⟨?_, ?_, ?_⟩
  · obtain ⟨f, -, ph, hv⟩ := (Client.simulation hq.refines).reachable h
    intro t op k choice hbusy
    obtain ⟨done, hph⟩ := hv.phase hbusy
    obtain ⟨d, u, op⟩ := op
    obtain ⟨d', k⟩ := k
    obtain ⟨hd, howner⟩ := hv.rel.named t _ hph
    obtain rfl : d' = d := hd
    obtain rfl : owner d' u = t := howner
    have hpart : Impl.part owner ph d' u = some (op, k, done) := by simp [Impl.part, hph]
    have hinv := hv.rel.rel d'
    have hstep : (step (s.impl d') k choice).isSome := by
      cases u with
      | producer =>
        rw [hpart] at hinv
        exact hinv.producer_isSome
      | consumer =>
        rw [hpart] at hinv
        exact hinv.consumer_isSome
    simpa [Impl.family, threads] using hstep
  · have hI := pointers_of_reachable hq h
    intro t op hwant
    cases t with
    | manager m =>
      obtain ⟨op', hop, rfl⟩ := Option.map_eq_some_iff.mp hwant
      simp only [RunThread.want] at hop
      split at hop
      · cases hop
        simp [Impl.family, owner, threads, call]
      · cases hop
    | router =>
      have hop : s.router.want = some op := hwant
      simp only [RouterThread.want] at hop
      split at hop
      · cases hop
        simp [Impl.family, owner, threads, call]
      · rename_i p es rest hpc
        cases hop
        by_cases hfronted : s.router.fronted = true
        · have hptr := hI.pointer p ⟨es, rest, Or.inl ⟨hpc, hfronted⟩⟩
          simp [Impl.family, owner, threads, hfronted, call,
            show (s.impl p).pointer.isSome from hptr]
        · simp [Impl.family, owner, threads, hfronted, call]
      · rename_i p es rest hpc
        cases hop
        have hptr := hI.pointer p ⟨es, rest, Or.inr hpc⟩
        simp [Impl.family, owner, threads, call, show (s.impl p).pointer.isSome from hptr]
      · cases hop
  · obtain ⟨a, ha, hlooks⟩ := withRing_refines hq h
    intro p es rest hpc
    obtain ⟨queue, popped', hp, hiff⟩ := hlooks.managers p
    have hrouter := hlooks.router (by rcases hpc with hpc | hpc <;> simp [hpc])
    have hne : (a.managers p).txQueue ≠ [] := by
      rcases hpc with hpc | hpc
      · exact txQueue_ne_nil halive ha (hrouter.trans hpc) ⟨es, Or.inl rfl⟩
      · exact txQueue_ne_nil halive ha (hrouter.trans hpc) ⟨es, Or.inr rfl⟩
    rw [hp] at hne
    exact fun hidx => hne (hiff.mp hidx)

/-! ### The queues of app12 -/

/-- The queues of `app12.cpp`. -/
def app12Queues (_ : Name) : SPSCQueue (Option Event) := ⟨3500001, 8, .raw 3500017, 0, 0, 0, 0⟩

lemma app12_queues (fds : Name → ℤ × ℤ) : (app12 fds).Queues app12Queues where
  pos _ := by show 0 < maxQueueSize; decide
  lt _ := by show maxQueueSize < sizeMax; decide
  create _ := rfl

/-- `app12.cpp` when the threads start. -/
def app12Start : RingState Name :=
  ⟨fun m => ⟨app12Queues m, none⟩, fun _ => none, (app12 sampleFds).client.init,
    (app12 sampleFds).client.threads⟩

/-- `ManagerA` puts its first event into the queue and fires. -/
def firstEvent : List (Client.ImplAction (Thread Name) (List ℤ) Bool) :=
  [.call (.manager .managerA), .step (.manager .managerA) false, .step (.manager .managerA) false,
    .step (.manager .managerA) false, .act (.manager .managerA) [], .act (.manager .managerA) [],
    .act (.manager .managerA) [], .act (.manager .managerA) []]

/-- The router takes the event out and hands it on. -/
def firstRoute : List (Client.ImplAction (Thread Name) (List ℤ) Bool) :=
  [.act .router [5], .act .router [], .act .router [], .act .router [], .act .router [],
    .call .router, .step .router true, .step .router true,
    .call .router, .step .router true, .step .router true,
    .call .router, .step .router true,
    .call .router, .step .router true, .step .router true, .step .router true, .step .router true,
    .call .router, .step .router true, .step .router true,
    .act .router [], .act .router [], .act .router [], .act .router [], .act .router []]

/-- The first event of `ManagerA` reaches `ManagerC`. -/
theorem withRing_delivery_app12 : ∃ s, ((app12 sampleFds).withRing app12Queues).Reachable s ∧
    received s .managerA .managerC = [.statusEvent 0 statusOk] ∧
    received s .managerA .managerC = (app12 sampleFds).sent s .managerA .managerC := by
  have h₀ : ((app12 sampleFds).withRing app12Queues).Reachable app12Start := .of_init rfl
  have hrun : (((app12 sampleFds).withRing app12Queues).exec app12Start
      (firstEvent ++ firstRoute)).map (fun s : RingState Name =>
        (s.router.pc matches .outside, (s.txQueue .managerA).writeIdx,
          (s.txQueue .managerA).readIdx, received s .managerA .managerC)) =
      some (true, 1, 1, [.statusEvent 0 statusOk]) := by decide +kernel
  obtain ⟨s, hs, heq⟩ := Option.map_eq_some_iff.mp hrun
  obtain ⟨hout, hw, hr, hrec⟩ : (s.router.pc matches .outside) = true ∧
      (RingState.txQueue s .managerA).writeIdx = 1 ∧
      (RingState.txQueue s .managerA).readIdx = 1 ∧
      received s .managerA .managerC = [.statusEvent 0 statusOk] := by simpa using heq
  have hpc : RouterThread.pc (RingState.router s) = .outside := by
    generalize (RingState.router s).pc = r at hout
    cases r <;> simp_all
  have hreach := h₀.exec hs
  exact ⟨s, hreach, hrec, (withRing_delivery (app12_wellFormed _) (app12_queues _) hreach).2.2 hpc
    .managerA .managerC (by decide) (hw.trans hr.symm)⟩

/-- The first event of `ManagerA` has made its pipe readable. -/
theorem withRing_readable_app12 : ∃ s, ((app12 sampleFds).withRing app12Queues).Reachable s ∧
    RingState.txQueue s .managerA ≠ app12Queues .managerA ∧ (s.shared .managerA).Readable := by
  have h₀ : ((app12 sampleFds).withRing app12Queues).Reachable app12Start := .of_init rfl
  have hrun : (((app12 sampleFds).withRing app12Queues).exec app12Start firstEvent).map
      (fun s : RingState Name => ((s.txQueue .managerA).writeIdx, (s.txQueue .managerA).readIdx,
        (s.run .managerA).pc, producing .managerA s.router.pc)) =
      some (1, 0, .tryEmplace, none) := by decide +kernel
  obtain ⟨s, hs, heq⟩ := Option.map_eq_some_iff.mp hrun
  obtain ⟨hw, hr, hpc, hprod⟩ : (RingState.txQueue s .managerA).writeIdx = 1 ∧
      (RingState.txQueue s .managerA).readIdx = 0 ∧
      RunThread.pc (RingState.run s .managerA) = .tryEmplace ∧
      producing .managerA (RouterThread.pc (RingState.router s)) = none := by simpa using heq
  have hreach := h₀.exec hs
  refine ⟨s, hreach, fun h => ?_, withRing_readable (fun _ => rfl) (app12_queues _) (by decide)
    hreach (by rw [hw, hr]; decide) (by rw [hpc]; decide) hprod⟩
  rw [h] at hw
  cases hw

/-- The router has tested the queue of `ManagerA` and is about to take its event. -/
theorem withRing_safe_app12 : ∃ s, ((app12 sampleFds).withRing app12Queues).Reachable s ∧
    producing .managerA (RouterThread.pc (RingState.router s)) = some (.front []) ∧
    (RingState.txQueue s .managerA).writeIdx ≠ (RingState.txQueue s .managerA).readIdx := by
  have h₀ : ((app12 sampleFds).withRing app12Queues).Reachable app12Start := .of_init rfl
  have hrun : (((app12 sampleFds).withRing app12Queues).exec app12Start
      (firstEvent ++ firstRoute.take 8)).map
      (fun s : RingState Name => producing .managerA s.router.pc) = some (some (.front [])) := by
    decide +kernel
  obtain ⟨s, hs, hprod⟩ := Option.map_eq_some_iff.mp hrun
  have hreach := h₀.exec hs
  obtain ⟨rest, hpc⟩ := exists_of_producing hprod
  exact ⟨s, hreach, hprod,
    (withRing_safe (fun _ => rfl) (app12_queues _) hreach).2.2 _ _ _ (Or.inl hpc)⟩

end EventManager.App12.Program
