import EventManager.App12.Routing
import EventManager.PipedEvent.Descriptors

/-!
# Descriptors that are used again

The map `producers` of the router never loses an entry, so that it still names a manager
after its destruction, under a descriptor that the kernel may give to the next pipe.  The
machine `world` makes, registers and destroys managers in any order.  In each of its states
the entry of a descriptor that is watched names the living manager that owns it
(`routes_to_owner`): a stale entry does not lock, and is overwritten when its number is
watched again.
-/

namespace EventManager.App12

open Steps

/-- Some managers, the router, and the kernel. -/
structure World (ι : Type) where
  /-- `txEvent` of the managers that are alive. -/
  txEvent : ι → Option PipedEvent
  /-- The managers that have been constructed. -/
  made : ι → Bool
  /-- The managers that `AddProducer` has been called for. -/
  added : ι → Bool
  /-- The router. -/
  router : EventRouter ι
  /-- The descriptors that are open. -/
  opened : Finset ℤ
  /-- The interest list of the router's epoll instance. -/
  interest : Finset ℤ
  /-- The ready descriptors that `WaitAndRoute` has still to look at. -/
  ready : List ℤ

/-- A step of the world.  `Fire` and `Consume` do not appear: they change neither the
descriptors of an event nor who is alive. -/
inductive WorldAction (ι : Type)
  /-- A manager is constructed, and its pipe gets the descriptors `fds`. -/
  | construct (m : ι) (fds : ℤ × ℤ)
  /-- `AddProducer(m->GetSources(), m)`. -/
  | addProducer (m : ι)
  /-- `AddConsumer(types, m)`. -/
  | addConsumer (types : List EventType) (m : ι)
  /-- The last shared pointer to the manager goes. -/
  | destroy (m : ι)
  /-- `WaitAndRoute` is called, and `epoll_wait` reports the descriptors `ready`. -/
  | wait (ready : List ℤ)
  /-- `WaitAndRoute` looks at the next of them. -/
  | entry

namespace World

variable {ι : Type}

/-- Nothing has been constructed, and the descriptors `opened` are in use. -/
def start (opened : Finset ℤ) : World ι where
  txEvent _ := none
  made _ := false
  added _ := false
  router := .create
  opened := opened
  interest := ∅
  ready := []

/-- The destructor of an event, and the descriptors that are open after it. -/
def closing (s : World ι) (ev : PipedEvent) : Finset ℤ :=
  (Process.mk ev s.opened []).destroy.opened

/-- The objects behind the weak pointers of the router, when their `Produce` would return
`events`. -/
def objects (s : World ι) (autoId : ι → Int32) (events : ι → List Event) : Objects ι Unit where
  alive _ m := (s.txEvent m).isSome
  autoId := autoId
  produce m _ := (events m, ())
  consume _ _ _ := ()

/-- The manager `m` is alive and owns the read end `fd`. -/
def Owns (s : World ι) (m : ι) (fd : ℤ) : Prop :=
  ∃ ev, s.txEvent m = some ev ∧ ev.getSource = fd

variable [DecidableEq ι]

/-- The state after a step. -/
def next (s : World ι) : WorldAction ι → Option (World ι)
  | .construct m fds =>
    if s.made m = false ∧ fds.1 ≠ 0 ∧ fds.2 ≠ 0 ∧ fds.1 ≠ fds.2 ∧
        fds.1 ∉ s.opened ∧ fds.2 ∉ s.opened then
      some { s with
        txEvent := Function.update s.txEvent m (some (.create fds))
        made := Function.update s.made m true
        opened := insert fds.1 (insert fds.2 s.opened) }
    else none
  | .addProducer m =>
    if s.added m then none
    else (s.txEvent m).map fun ev => { s with
      added := Function.update s.added m true
      router := (s.router.addProducer ev.getSource m 0).1
      interest := insert ev.getSource s.interest }
  | .addConsumer types m => some { s with router := s.router.addConsumer types m }
  | .destroy m => (s.txEvent m).map fun ev => { s with
      txEvent := Function.update s.txEvent m none
      opened := s.closing ev
      -- the kernel drops what is closed
      interest := s.interest.filter (· ∈ s.closing ev) }
  | .wait ready =>
    if s.ready = [] ∧ ready.length ≤ maxEvents ∧ ∀ fd ∈ ready, fd ∈ s.interest then
      some { s with ready := ready }
    else none
  | .entry =>
    match s.ready with
    | [] => none
    | _ :: rest => some { s with ready := rest }

end World

/-- The machine of the world. -/
def world (ι : Type) [DecidableEq ι] : Machine (World ι) (WorldAction ι) where
  init s := ∃ opened, s = .start opened
  next := World.next

namespace World

variable {ι : Type}

/-! ### The invariant -/

/-- The event holds a pipe whose ends are open. -/
structure Holds (ev : PipedEvent) (opened : Finset ℤ) : Prop where
  source : ev.fds.1 ≠ 0 ∧ ev.fds.1 ∈ opened
  sink : ev.fds.2 ≠ 0 ∧ ev.fds.2 ∈ opened
  distinct : ev.fds.1 ≠ ev.fds.2

/-- The ends of the pipe of an event. -/
def ends (ev : PipedEvent) : Finset ℤ := {ev.fds.1, ev.fds.2}

/-- The managers that are alive hold pipes of their own, an entry of the map names a manager
that was added with this descriptor, and a watched descriptor has an entry whose manager is
alive. -/
structure Inv (s : World ι) : Prop where
  made : ∀ m ev, s.txEvent m = some ev → s.made m = true
  holds : ∀ m ev, s.txEvent m = some ev → Holds ev s.opened
  disjoint : ∀ m m' ev ev', m ≠ m' → s.txEvent m = some ev → s.txEvent m' = some ev' →
    Disjoint (ends ev) (ends ev')
  entry : ∀ fd m, s.router.producers fd = some m →
    s.made m = true ∧ ∀ ev, s.txEvent m = some ev → ev.getSource = fd
  interest : ∀ fd ∈ s.interest, ∃ m, s.router.producers fd = some m ∧ (s.txEvent m).isSome

lemma holds_subset {ev : PipedEvent} {opened opened' : Finset ℤ} (h : Holds ev opened)
    (hsub : ends ev ⊆ opened') : Holds ev opened' :=
  ⟨⟨h.source.1, hsub (by simp [ends])⟩, ⟨h.sink.1, hsub (by simp [ends])⟩, h.distinct⟩

lemma Holds.ends_subset {ev : PipedEvent} {opened : Finset ℤ} (h : Holds ev opened) :
    ends ev ⊆ opened := by
  intro fd hfd
  rcases Finset.mem_insert.mp hfd with rfl | hfd
  · exact h.source.2
  · rw [Finset.mem_singleton.mp hfd]
    exact h.sink.2

lemma closing_eq {s : World ι} {ev : PipedEvent} (h : Holds ev s.opened) :
    s.closing ev = s.opened \ ends ev := by
  have hsink : ev.fds.2 ∈ s.opened.erase ev.fds.1 :=
    Finset.mem_erase.mpr ⟨Ne.symm h.distinct, h.sink.2⟩
  rw [closing, Process.destroy, Process.closeSource_of_open h.source.1 h.source.2]
  rw [Process.closeSink_of_open h.sink.1 hsink]
  ext fd
  simp only [Process.close, Finset.mem_erase, Finset.mem_sdiff, ends, Finset.mem_insert,
    Finset.mem_singleton]
  tauto

lemma inv_start (opened : Finset ℤ) : Inv (start opened : World ι) where
  made m ev h := by cases h
  holds m ev h := by cases h
  disjoint m m' ev ev' _ h := by cases h
  entry fd m h := by cases h
  interest fd h := absurd h (Finset.notMem_empty fd)

variable [DecidableEq ι] {s : World ι}

/-- A new manager holds a pipe that nobody else holds, and no entry names it yet. -/
lemma inv_construct (h : Inv s) {m : ι} {fds : ℤ × ℤ} (hm : s.made m = false)
    (hne : fds.1 ≠ fds.2) (hsource : fds.1 ≠ 0 ∧ fds.1 ∉ s.opened)
    (hsink : fds.2 ≠ 0 ∧ fds.2 ∉ s.opened) :
    Inv { s with
      txEvent := Function.update s.txEvent m (some (.create fds))
      made := Function.update s.made m true
      opened := insert fds.1 (insert fds.2 s.opened) } := by
  have hnew : Disjoint (ends (.create fds)) s.opened := by
    simp [ends, PipedEvent.create, hsource.2, hsink.2]
  have hcases : ∀ m' ev, Function.update s.txEvent m (some (.create fds)) m' = some ev →
      (m' = m ∧ ev = .create fds) ∨ s.txEvent m' = some ev := by
    intro m' ev hev
    by_cases hm' : m' = m
    · rw [hm', Function.update_self] at hev
      exact Or.inl ⟨hm', (Option.some.inj hev).symm⟩
    · rw [Function.update_of_ne hm'] at hev
      exact Or.inr hev
  have hmade : ∀ m', s.made m' = true → m' ≠ m := by
    rintro m' hm' rfl
    exact absurd (hm'.symm.trans hm) (by simp)
  have hapart : ∀ m' ev, s.txEvent m' = some ev → Disjoint (ends (.create fds)) (ends ev) :=
    fun m' ev hev => hnew.mono_right (h.holds m' ev hev).ends_subset
  refine ⟨?_, ?_, ?_, ?_, ?_⟩
  · intro m' ev hev
    rcases hcases m' ev hev with ⟨rfl, -⟩ | hold
    · simp
    · have hm' := h.made m' ev hold
      simp only [Function.update_of_ne (hmade m' hm')]
      exact hm'
  · intro m' ev hev
    rcases hcases m' ev hev with ⟨-, rfl⟩ | hold
    · exact ⟨⟨hsource.1, by simp [PipedEvent.create]⟩, ⟨hsink.1, by simp [PipedEvent.create]⟩,
        hne⟩
    · have hholds := h.holds m' ev hold
      refine holds_subset hholds (hholds.ends_subset.trans ?_)
      exact (Finset.subset_insert _ _).trans (Finset.subset_insert _ _)
  · intro m₁ m₂ ev₁ ev₂ hm₁₂ hev₁ hev₂
    rcases hcases m₁ ev₁ hev₁ with ⟨rfl, rfl⟩ | hold₁
    · rcases hcases m₂ ev₂ hev₂ with ⟨rfl, -⟩ | hold₂
      · exact absurd rfl hm₁₂
      · exact hapart m₂ ev₂ hold₂
    · rcases hcases m₂ ev₂ hev₂ with ⟨-, rfl⟩ | hold₂
      · exact (hapart m₁ ev₁ hold₁).symm
      · exact h.disjoint m₁ m₂ ev₁ ev₂ hm₁₂ hold₁ hold₂
  · intro fd m' hentry
    obtain ⟨hm', hsource'⟩ := h.entry fd m' hentry
    simp only [Function.update_of_ne (hmade m' hm')]
    exact ⟨hm', hsource'⟩
  · intro fd hfd
    obtain ⟨m', hentry, halive⟩ := h.interest fd hfd
    refine ⟨m', hentry, ?_⟩
    simp only [Function.update_of_ne (hmade m' (h.entry fd m' hentry).1)]
    exact halive

/-- The new entry overwrites a stale one, if there is one. -/
lemma inv_addProducer (h : Inv s) {m : ι} {ev : PipedEvent} (hm : s.txEvent m = some ev) :
    Inv { s with
      added := Function.update s.added m true
      router := (s.router.addProducer ev.getSource m 0).1
      interest := insert ev.getSource s.interest } := by
  refine ⟨h.made, h.holds, h.disjoint, ?_, ?_⟩
  · intro fd m' hentry
    by_cases hfd : fd = ev.getSource
    · simp only [EventRouter.addProducer, hfd, Function.update_self, Option.some.injEq] at hentry
      subst hentry
      refine ⟨h.made m ev hm, fun ev' hev' => ?_⟩
      obtain rfl : ev = ev' := Option.some.inj (hm.symm.trans hev')
      exact hfd.symm
    · simp only [EventRouter.addProducer, Function.update_of_ne hfd] at hentry
      exact h.entry fd m' hentry
  · intro fd hfd
    by_cases heq : fd = ev.getSource
    · exact ⟨m, by simp [EventRouter.addProducer, heq], by simp [hm]⟩
    · obtain ⟨m', hentry, halive⟩ := h.interest fd ((Finset.mem_insert.mp hfd).resolve_left heq)
      refine ⟨m', ?_, halive⟩
      simp only [EventRouter.addProducer, Function.update_of_ne heq]
      exact hentry

/-- The destruction of a manager closes no descriptor of another one, and what it closes is no
longer watched. -/
lemma inv_destroy (h : Inv s) {m : ι} {ev : PipedEvent} (hm : s.txEvent m = some ev) :
    Inv { s with
      txEvent := Function.update s.txEvent m none
      opened := s.closing ev
      interest := s.interest.filter (· ∈ s.closing ev) } := by
  have hother : ∀ m' ev', Function.update s.txEvent m none m' = some ev' →
      m' ≠ m ∧ s.txEvent m' = some ev' := by
    intro m' ev' hev'
    by_cases hm' : m' = m
    · rw [hm', Function.update_self] at hev'
      cases hev'
    · rw [Function.update_of_ne hm'] at hev'
      exact ⟨hm', hev'⟩
  refine ⟨?_, ?_, ?_, ?_, ?_⟩
  · intro m' ev' hev'
    exact h.made m' ev' (hother m' ev' hev').2
  · intro m' ev' hev'
    obtain ⟨hm', hev'⟩ := hother m' ev' hev'
    have hholds := h.holds m' ev' hev'
    refine holds_subset hholds ?_
    rw [closing_eq (h.holds m ev hm)]
    exact Finset.subset_sdiff.mpr ⟨hholds.ends_subset, h.disjoint m' m ev' ev hm' hev' hm⟩
  · intro m₁ m₂ ev₁ ev₂ hne hev₁ hev₂
    exact h.disjoint m₁ m₂ ev₁ ev₂ hne (hother m₁ ev₁ hev₁).2 (hother m₂ ev₂ hev₂).2
  · intro fd m' hentry
    obtain ⟨hm', hsource⟩ := h.entry fd m' hentry
    exact ⟨hm', fun ev' hev' => hsource ev' (hother m' ev' hev').2⟩
  · intro fd hfd
    obtain ⟨hwatched, hopen⟩ := Finset.mem_filter.mp hfd
    obtain ⟨m', hentry, halive⟩ := h.interest fd hwatched
    refine ⟨m', hentry, ?_⟩
    -- the entry cannot be that of `m`: its descriptor has just been closed
    have hm' : m' ≠ m := by
      rintro rfl
      rw [closing_eq (h.holds m' ev hm), ← (h.entry fd m' hentry).2 ev hm] at hopen
      exact (Finset.mem_sdiff.mp hopen).2 (by simp [ends, PipedEvent.getSource])
    simp only [Function.update_of_ne hm']
    exact halive

lemma inv_step {t : World ι} {a : WorldAction ι} (h : Inv s) (ha : s.next a = some t) :
    Inv t := by
  cases a with
  | construct m fds =>
    obtain ⟨⟨hm, h₁, h₂, hne, hn₁, hn₂⟩, heq⟩ := Option.ite_none_right_eq_some.mp ha
    cases heq
    exact inv_construct h hm hne ⟨h₁, hn₁⟩ ⟨h₂, hn₂⟩
  | addProducer m =>
    obtain ⟨-, ha⟩ := Option.ite_none_left_eq_some.mp ha
    obtain ⟨ev, hm, rfl⟩ := Option.map_eq_some_iff.mp ha
    exact inv_addProducer h hm
  | addConsumer types m =>
    cases ha
    refine ⟨h.made, h.holds, h.disjoint, ?_, ?_⟩
    · simp only [EventRouter.addConsumer_producers]
      exact h.entry
    · simp only [EventRouter.addConsumer_producers]
      exact h.interest
  | destroy m =>
    obtain ⟨ev, hm, rfl⟩ := Option.map_eq_some_iff.mp ha
    exact inv_destroy h hm
  | wait ready =>
    obtain ⟨-, heq⟩ := Option.ite_none_right_eq_some.mp ha
    cases heq
    exact ⟨h.made, h.holds, h.disjoint, h.entry, h.interest⟩
  | entry =>
    simp only [next] at ha
    split at ha
    · cases ha
    · cases ha
      exact ⟨h.made, h.holds, h.disjoint, h.entry, h.interest⟩

lemma inv_of_reachable {s : World ι} (h : (world ι).Reachable s) : Inv s := by
  refine h.invariant (I := Inv) ?_ fun s a t hs ha => inv_step hs ha
  rintro s ⟨opened, rfl⟩
  exact inv_start opened

omit [DecidableEq ι] in
lemma Inv.eq_of_owns (h : Inv s) {m m' : ι} {fd : ℤ} (hm : s.Owns m fd) (hm' : s.Owns m' fd) :
    m = m' := by
  by_contra hne
  obtain ⟨ev, hev, rfl⟩ := hm
  obtain ⟨ev', hev', heq⟩ := hm'
  have hmem : ev.getSource ∈ ends ev := by simp [ends, PipedEvent.getSource]
  have hmem' : ev.getSource ∈ ends ev' := by
    rw [← heq]
    simp [ends, PipedEvent.getSource]
  exact Finset.disjoint_left.mp (h.disjoint m m' ev ev' hne hev hev') hmem hmem'

omit [DecidableEq ι] in
/-- An entry that locks names the owner of its descriptor. -/
lemma Inv.owns_of_alive (h : Inv s) {m : ι} {fd : ℤ} (hentry : s.router.producers fd = some m)
    (halive : (s.txEvent m).isSome) : s.Owns m fd := by
  obtain ⟨ev, hev⟩ := Option.isSome_iff_exists.mp halive
  exact ⟨ev, hev, (h.entry fd m hentry).2 ev hev⟩

end World

/-- Whatever is made, registered and destroyed, a watched descriptor has an entry that locks
to the living manager that owns it, and for a ready descriptor `Produce` is called on that
owner only. -/
theorem routes_to_owner {ι : Type} [DecidableEq ι] {s : World ι} (h : (world ι).Reachable s) :
    (∀ fd ∈ s.interest, ∃ m, s.router.producers fd = some m ∧ s.Owns m fd ∧
      ∀ m', s.Owns m' fd → m' = m) ∧
    ∀ fd rest, s.ready = fd :: rest → ∀ autoId events p,
      .produce p ∈ (s.router.routeEntry (s.objects autoId events) ((), []) fd).2 →
        s.Owns p fd := by
  have hinv := World.inv_of_reachable h
  constructor
  · intro fd hfd
    obtain ⟨m, hentry, halive⟩ := hinv.interest fd hfd
    have howns := hinv.owns_of_alive hentry halive
    exact ⟨m, hentry, howns, fun m' hm' => hinv.eq_of_owns hm' howns⟩
  · intro fd rest _ autoId events p hp
    rcases EventRouter.produce_mem_routeEntry.mp hp with hp | ⟨hentry, halive⟩
    · cases hp
    · exact hinv.owns_of_alive hentry halive

/-- `ManagerA` is destroyed and `ManagerB` gets its descriptors: the entry of the descriptor 3
names `ManagerB` when it is ready. -/
theorem routes_to_owner_reused : ∃ s, (world Name).Reachable s ∧ s.ready = [3] ∧
    s.Owns .managerB 3 ∧
    ∀ autoId events p,
      .produce p ∈ (s.router.routeEntry (s.objects autoId events) ((), []) 3).2 →
        s.Owns p 3 := by
  have h₀ : (world Name).Reachable (.start ∅) := .of_init ⟨∅, rfl⟩
  obtain ⟨s, hs, hready, howns⟩ : ∃ s, (world Name).exec (.start ∅)
      [.construct .managerA (3, 4), .addProducer .managerA, .destroy .managerA,
        .construct .managerB (3, 4), .addProducer .managerB, .wait [3]] = some s ∧
      s.ready = [3] ∧ s.Owns .managerB 3 := ⟨_, rfl, rfl, _, rfl, rfl⟩
  exact ⟨s, h₀.exec hs, hready, howns, (routes_to_owner (h₀.exec hs)).2 3 [] hready⟩

end EventManager.App12
