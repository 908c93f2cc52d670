import EventManager.EventPoller.Basic
import EventManager.Lib.Machine

/-!
# The registry and the kernel

An `EventPoller` keeps in `_watchers` what `Execute` needs for a descriptor, while the kernel
keeps the descriptors that are watched.  `Add` writes its pair only after the kernel has taken
the descriptor; `Remove` asks the kernel and leaves the pair in the map.  The two agree all
along a run exactly when no descriptor with a pair is removed (`agrees_iff`).
-/

namespace EventManager

open Steps

namespace EventPoller

variable {P C : Type}

/-- `epoll_ctl` with `EPOLL_CTL_DEL`, and what it returns. -/
def ctlDel (poller : EventPoller P C) (ok : Bool) (fd : ℤ) : EventPoller P C × ℤ :=
  if ok ∧ fd ∈ poller.interest then ({ poller with interest := poller.interest.erase fd }, 0)
  else (poller, -1)

/-- `Remove`. -/
def remove (poller : EventPoller P C) (ok : Bool) (fd : ℤ) : EventPoller P C × ℤ :=
  poller.ctlDel ok fd

/-- A call that `Execute` makes. -/
inductive Call (P C E : Type)
  | produce (producer : P)
  | consume (consumer : C) (event : E)
deriving DecidableEq

/-- The objects behind the weak pointers: those that can be locked, and what `Produce`
returns. -/
structure Objects (P C E : Type) where
  producer : P → Bool
  consumer : C → Bool
  produce : P → List E

/-- The calls of `Execute`. -/
def execute {E : Type} (poller : EventPoller P C) (objects : Objects P C E) (fd : ℤ) :
    List (Call P C E) :=
  match poller.watchers fd with
  | none => []
  | some (producer, consumer) =>
    if objects.producer producer ∧ objects.consumer consumer then
      .produce producer :: (objects.produce producer).map (.consume consumer)
    else []

/-! ### What the calls do -/

variable (poller : EventPoller P C)

/-- `Add` adds a new descriptor, or changes nothing. -/
lemma add_cases {fd : ℤ} (hfd : fd ≠ -1) (ok : Bool) :
    (fd ∉ poller.interest ∧
      poller.add ok fd = ({ poller with interest := insert fd poller.interest }, 0)) ∨
    poller.add ok fd = (poller, -1) := by
  rw [add, if_pos hfd, ctlAdd]
  by_cases h : ok ∧ fd ∉ poller.interest
  · rw [if_pos h]
    exact Or.inl ⟨h.2, rfl⟩
  · rw [if_neg h]
    exact Or.inr rfl

lemma addPair_cases {fd : ℤ} (hfd : fd ≠ -1) (ok : Bool) (producer : P) (consumer : C) :
    (fd ∉ poller.interest ∧ poller.addPair ok fd producer consumer =
      (⟨insert fd poller.interest,
        Function.update poller.watchers fd (some (producer, consumer))⟩, 0)) ∨
    poller.addPair ok fd producer consumer = (poller, -1) := by
  rw [addPair, if_pos hfd]
  rcases add_cases poller hfd ok with ⟨hmem, heq⟩ | heq
  · rw [heq]
    exact Or.inl ⟨hmem, rfl⟩
  · rw [heq]
    exact Or.inr rfl

lemma remove_cases (ok : Bool) (fd : ℤ) :
    (ok = true ∧ fd ∈ poller.interest ∧
      poller.remove ok fd = ({ poller with interest := poller.interest.erase fd }, 0)) ∨
    poller.remove ok fd = (poller, -1) := by
  rw [remove, ctlDel]
  by_cases h : ok ∧ fd ∈ poller.interest
  · rw [if_pos h]
    exact Or.inl ⟨h.1, h.2, rfl⟩
  · rw [if_neg h]
    exact Or.inr rfl

end EventPoller

/-! ### The machine -/

/-- The form of a call of `Add`. -/
inductive Form (P C : Type)
  | plain
  | pair (pair : P × C)
deriving DecidableEq

/-- A poller, with the form of the latest successful `Add` of every descriptor. -/
structure Registry (P C : Type) where
  poller : EventPoller P C
  latest : ℤ → Option (Form P C)

/-- A call on a poller; `ok` is false when `epoll_ctl` fails whatever its list holds. -/
inductive RegistryAction (P C : Type)
  | add (ok : Bool) (fd : ℕ)
  | addPair (ok : Bool) (fd : ℕ) (producer : P) (consumer : C)
  | remove (ok : Bool) (fd : ℕ)

namespace Registry

variable {P C : Type}

/-- A new poller. -/
def create : Registry P C := ⟨.create, fun _ => none⟩

/-- The state after a call of `Add` with the result `r`. -/
def record (s : Registry P C) (fd : ℤ) (form : Form P C) (r : EventPoller P C × ℤ) :
    Registry P C where
  poller := r.1
  latest := if r.2 = 0 then Function.update s.latest fd (some form) else s.latest

/-- The state after a call. -/
def call (s : Registry P C) : RegistryAction P C → Registry P C
  | .add ok fd => s.record fd .plain (s.poller.add ok fd)
  | .addPair ok fd producer consumer =>
    s.record fd (.pair (producer, consumer)) (s.poller.addPair ok fd producer consumer)
  | .remove ok fd => { s with poller := (s.poller.remove ok fd).1 }

end Registry

/-- The machine of the calls on one poller. -/
def registry (P C : Type) : Machine (Registry P C) (RegistryAction P C) where
  init s := s = .create
  next s a := some (s.call a)

namespace Registry

variable {P C : Type}

/-- The map holds the pairs of the descriptors that are watched and were last added with a
pair, and `Execute` calls `Produce` for these only. -/
structure Agrees (s : Registry P C) : Prop where
  watched : ∀ fd pair, s.poller.watchers fd = some pair ↔
    fd ∈ s.poller.interest ∧ s.latest fd = some (.pair pair)
  executes : ∀ (E : Type) (objects : EventPoller.Objects P C E) fd producer,
    .produce producer ∈ s.poller.execute objects fd →
      fd ∈ s.poller.interest ∧ ∃ consumer, s.latest fd = some (.pair (producer, consumer))

/-- The call is a `Remove` that succeeds, of a descriptor with a pair. -/
def Orphans (s : Registry P C) : RegistryAction P C → Prop
  | .remove ok fd => ok = true ∧ (fd : ℤ) ∈ s.poller.interest ∧ (s.poller.watchers fd).isSome
  | _ => False

instance (s : Registry P C) (a : RegistryAction P C) : Decidable (s.Orphans a) := by
  cases a <;> simp only [Orphans] <;> infer_instance

/-! ### Agreement -/

lemma agrees_of_watched {s : Registry P C} (h : ∀ fd pair, s.poller.watchers fd = some pair ↔
    fd ∈ s.poller.interest ∧ s.latest fd = some (.pair pair)) : s.Agrees := by
  refine ⟨h, fun E objects fd producer hcall => ?_⟩
  cases hpair : s.poller.watchers fd with
  | none => simp [EventPoller.execute, hpair] at hcall
  | some pair =>
    obtain ⟨p, c⟩ := pair
    obtain ⟨hmem, hlatest⟩ := (h fd (p, c)).mp hpair
    simp only [EventPoller.execute, hpair] at hcall
    split at hcall
    · obtain rfl : producer = p := by simpa using hcall
      exact ⟨hmem, c, hlatest⟩
    · cases hcall

lemma agrees_create : (create : Registry P C).Agrees :=
  agrees_of_watched fun fd pair => by simp [create, EventPoller.create]

variable {s : Registry P C}

lemma natCast_ne (fd : ℕ) : (fd : ℤ) ≠ -1 := by omega

lemma Agrees.watchers_eq_none (h : s.Agrees) {fd : ℤ} (hfd : fd ∉ s.poller.interest) :
    s.poller.watchers fd = none := by
  by_contra hne
  obtain ⟨pair, hpair⟩ := Option.ne_none_iff_exists'.mp hne
  exact hfd ((h.watched fd pair).mp hpair).1

lemma agrees_add (h : s.Agrees) (ok : Bool) (fd : ℕ) : (s.call (.add ok fd)).Agrees := by
  rcases s.poller.add_cases (natCast_ne fd) ok with ⟨hmem, heq⟩ | heq
  · refine agrees_of_watched fun fd' pair => ?_
    simp only [call, record, heq, if_true]
    by_cases hfd : fd' = fd
    · simp [hfd, h.watchers_eq_none hmem]
    · simp [hfd, h.watched]
  · simpa [call, record, heq] using h

lemma agrees_addPair (h : s.Agrees) (ok : Bool) (fd : ℕ) (producer : P) (consumer : C) :
    (s.call (.addPair ok fd producer consumer)).Agrees := by
  rcases s.poller.addPair_cases (natCast_ne fd) ok producer consumer with ⟨-, heq⟩ | heq
  · refine agrees_of_watched fun fd' pair => ?_
    simp only [call, record, heq, if_true]
    by_cases hfd : fd' = fd
    · simp [hfd]
    · simp [hfd, h.watched]
  · simpa [call, record, heq] using h

lemma agrees_remove (h : s.Agrees) (ok : Bool) (fd : ℕ) (hpair : ¬ s.Orphans (.remove ok fd)) :
    (s.call (.remove ok fd)).Agrees := by
  rcases s.poller.remove_cases ok fd with ⟨rfl, hmem, heq⟩ | heq
  · have hnone : s.poller.watchers fd = none := by
      by_contra hne
      exact hpair ⟨rfl, hmem, Option.isSome_iff_ne_none.mpr hne⟩
    refine agrees_of_watched fun fd' pair => ?_
    simp only [call, heq]
    by_cases hfd : fd' = fd
    · simp [hfd, hnone]
    · simp [hfd, h.watched]
  · simpa [call, heq] using h

/-- A pair that outlives its descriptor. -/
lemma not_agrees_of_orphans {a : RegistryAction P C} (h : s.Orphans a) :
    ¬ (s.call a).Agrees := by
  cases a with
  | add ok fd => exact h.elim
  | addPair ok fd producer consumer => exact h.elim
  | remove ok fd =>
    obtain ⟨rfl, hmem, hsome⟩ := h
    obtain ⟨pair, hpair⟩ := Option.isSome_iff_exists.mp hsome
    intro hagrees
    have hkept : (s.call (.remove true fd)).poller.watchers fd = some pair := by
      simpa [call, EventPoller.remove, EventPoller.ctlDel, hmem] using hpair
    have hwatched := ((hagrees.watched fd pair).mp hkept).1
    simp [call, EventPoller.remove, EventPoller.ctlDel, hmem] at hwatched

lemma agrees_step {t : Registry P C} {a : RegistryAction P C} (h : s.Agrees)
    (hpair : ¬ s.Orphans a) (hs : (registry P C).next s a = some t) : t.Agrees := by
  cases hs
  cases a with
  | add ok fd => exact agrees_add h ok fd
  | addPair ok fd producer consumer => exact agrees_addPair h ok fd producer consumer
  | remove ok fd => exact agrees_remove h ok fd hpair

/-- The map and the kernel agree in all states of a run exactly when no call of the run
removes a descriptor that has a pair. -/
theorem agrees_iff {t : Registry P C} {tr : List (Registry P C × RegistryAction P C)}
    (hr : (registry P C).Run .create tr t) :
    ((∀ p ∈ tr, p.1.Agrees) ∧ t.Agrees) ↔ ∀ p ∈ tr, ¬ p.1.Orphans p.2 := by
  constructor
  · rintro ⟨htr, ht⟩ p hp horphans
    obtain ⟨u, hu, hvisited⟩ := hr.next_of_mem hp
    obtain rfl := Option.some.inj hu
    have hlost := not_agrees_of_orphans horphans
    rcases hvisited with heq | ⟨q, hq, heq⟩
    · exact hlost (heq ▸ ht)
    · exact hlost (heq ▸ htr q hq)
  · intro hpair
    have hstep : ∀ s a u, Agrees s → ¬ s.Orphans a → (registry P C).next s a = some u →
        Agrees u := fun s a u hI ha hs => agrees_step hI ha hs
    constructor
    · intro p hp
      exact hr.invariant_mem hstep hpair agrees_create hp
    · exact hr.invariant hstep hpair agrees_create

/-- A poller whose removed descriptor had no pair, and is added again with one. -/
theorem agrees_readded : ∃ s, (registry ℕ ℕ).Reachable s ∧
    s.poller.watchers 6 = some (3, 4) ∧ s.Agrees := by
  have h₀ : (registry ℕ ℕ).Reachable .create := .of_init rfl
  obtain ⟨s, hs, hpair, hremove⟩ : ∃ s, (registry ℕ ℕ).exec .create
      [.addPair true 5 1 2, .add true 6, .remove true 6, .addPair true 6 3 4] = some s ∧
      s.poller.watchers 6 = some (3, 4) ∧
      ∀ p ∈ (registry ℕ ℕ).trace .create
        [.addPair true 5 1 2, .add true 6, .remove true 6, .addPair true 6 3 4],
        ¬ p.1.Orphans p.2 := by
    exact ⟨_, rfl, rfl, by decide⟩
  exact ⟨s, h₀.exec hs, hpair, ((agrees_iff (Machine.run_of_exec hs)).mpr hremove).2⟩

/-- The descriptor 5 is removed, and `Execute` still calls its producer. -/
theorem not_agrees : ∃ s, (registry ℕ ℕ).Reachable s ∧ s.poller.interest = ∅ ∧
    (∀ E (objects : EventPoller.Objects ℕ ℕ E), objects.producer 1 → objects.consumer 2 →
      .produce 1 ∈ s.poller.execute objects 5) ∧
    ¬ s.Agrees := by
  have h₀ : (registry ℕ ℕ).Reachable .create := .of_init rfl
  obtain ⟨s, hs, hinterest, hpair⟩ : ∃ s, (registry ℕ ℕ).exec .create
      [.addPair true 5 1 2, .remove true 5] = some s ∧ s.poller.interest = ∅ ∧
      s.poller.watchers 5 = some (1, 2) := ⟨_, rfl, rfl, rfl⟩
  refine ⟨s, h₀.exec hs, hinterest, ?_, fun hagrees => ?_⟩
  · intro E objects hproducer hconsumer
    simp [EventPoller.execute, hpair, hproducer, hconsumer]
  · have hmem := ((hagrees.watched 5 (1, 2)).mp hpair).1
    simp [hinterest] at hmem

end Registry

end EventManager
