import EventManager.Lib.Machine
import EventManager.Wrapper.Basic

/-!
# Wrapped lists

Threads work on the lists of any number of `Wrapper<std::list<T>, std::mutex>`, each with
lists of its own beside them.  An operation locks the wrapper in `operator->`, changes the
list, and unlocks it in `~CallProxy`: a call of a method of the list, to which the thread may
hand its own lists (as in `txQueue->swap(events)`), or one of the two `Append`.

A full expression can hold proxies of several wrappers, one of each: in
`a->push_back(b->front())` the list of `b` is locked, used and unlocked while that of `a` is
locked.  So a thread may have several operations in progress.  Between the lock and the call of
an operation that gets lists of its own, it leaves these alone.
-/

namespace EventManager

open Steps

/-- `splice` of `items` before the position `pos` of `list`. -/
def splice {T : Type} (list : List T) (pos : ℕ) (items : List T) : List T :=
  list.take pos ++ items ++ list.drop pos

/-- At the end, `splice` appends. -/
lemma splice_length {T : Type} (list items : List T) :
    splice list list.length items = list ++ items := by
  simp [splice]

/-- An operation on the wrapper `target`: the wrappers are named by `κ`, the own lists of a
thread by `ν`. -/
inductive Operation (κ ν T R : Type)
  /-- A call of a method of the list. -/
  | call (target : κ) (method : List T → List T × R)
  /-- A call of a method that gets lists of the thread. -/
  | callWith (target : κ) (method : List T → (ν → List T) → List T × (ν → List T) × R)
  /-- `Append(to, from, at)`, with the own list `source` for `from`. -/
  | appendAt (target : κ) (source : ν) (pos : ℕ)
  /-- `Append(to, std::move(from))`. -/
  | appendAll (target : κ) (source : ν)

/-- How an operation has ended. -/
inductive Outcome (R : Type)
  | pending
  /-- The call, or an argument of it, has thrown. -/
  | threw
  /-- The call has returned: `none` is the result of `Append`. -/
  | returned (r : Option R)

/-- What the log records. -/
inductive ListsEntry (κ ι ν T R : Type)
  /-- An operation, in the place of its lock. -/
  | operation (i : ι) (op : Operation κ ν T R) (outcome : Outcome R)
  /-- A thread changes its own lists. -/
  | change (i : ι) (own : ν → List T)

/-- A `CallProxy` that has not been destroyed. -/
structure CallProxy (κ ν T R : Type) where
  /-- The operation that it is for. -/
  operation : Operation κ ν T R
  /-- The step that the operation takes next. -/
  pc : ProxyPc
  /-- The place of the operation in the log. -/
  place : ℕ

/-- What belongs to a thread. -/
structure ListThread (κ ν T R : Type) where
  /-- Its own lists. -/
  own : ν → List T
  /-- Its proxies, by their wrappers. -/
  proxies : κ → Option (CallProxy κ ν T R)
  /-- The wrapper of the operation that waits for its own lists. -/
  handing : Option κ

/-- The state of the wrappers and the threads. -/
structure Lists (κ ι ν T R : Type) where
  /-- The wrappers. -/
  wrappers : κ → Wrapper (List T)
  /-- The threads. -/
  threads : ι → ListThread κ ν T R
  /-- The operations, in the order in which they have locked, and the changes of own lists. -/
  log : List (ListsEntry κ ι ν T R)

/-- A step of the thread `i`. -/
inductive ListsAction (κ ι ν T R : Type)
  /-- `operator->`, for the operation `op`. -/
  | lock (i : ι) (op : Operation κ ν T R)
  /-- The call of the method or of `splice`, which may throw. -/
  | call (i : ι) (w : κ) (throws : Bool)
  /-- `~CallProxy`; it comes before the call when an argument of the call throws. -/
  | unlock (i : ι) (w : κ)
  /-- Between operations, a change of its own lists. -/
  | change (i : ι) (own : ν → List T)

variable {κ ι ν T R : Type} [DecidableEq κ] [DecidableEq ι] [DecidableEq ν]

/-- Nothing waits for the own lists on the wrapper `w` any longer. -/
def ListThread.handingAfter (th : ListThread κ ν T R) (w : κ) : Option κ :=
  if th.handing = some w then none else th.handing

namespace Operation

/-- The wrapper that is locked. -/
def target : Operation κ ν T R → κ
  | call w _ => w
  | callWith w _ => w
  | appendAt w _ _ => w
  | appendAll w _ => w

/-- The operation gets lists of the thread. -/
def UsesOwn : Operation κ ν T R → Prop
  | call _ _ => False
  | _ => True

instance (op : Operation κ ν T R) : Decidable op.UsesOwn :=
  match op with
  | call _ _ => inferInstanceAs (Decidable False)
  | callWith _ _ => inferInstanceAs (Decidable True)
  | appendAt _ _ _ => inferInstanceAs (Decidable True)
  | appendAll _ _ => inferInstanceAs (Decidable True)

/-- The position that `Append` is given is valid. -/
def Valid (own : ν → List T) : Operation κ ν T R → Prop
  | appendAt _ source pos => pos < (own source).length
  | _ => True

instance (own : ν → List T) (op : Operation κ ν T R) : Decidable (op.Valid own) :=
  match op with
  | call _ _ => inferInstanceAs (Decidable True)
  | callWith _ _ => inferInstanceAs (Decidable True)
  | appendAt _ source pos => inferInstanceAs (Decidable (pos < (own source).length))
  | appendAll _ _ => inferInstanceAs (Decidable True)

/-- What the operation does to the wrapped list and to the lists of the thread, and its
result. -/
def run (own : ν → List T) (list : List T) : Operation κ ν T R →
    List T × (ν → List T) × Option R
  | call _ method => ((method list).1, own, some (method list).2)
  | callWith _ method =>
    ((method list own).1, (method list own).2.1, some (method list own).2.2)
  | appendAt _ source pos =>
    (splice list list.length (own source)[pos]?.toList,
      Function.update own source ((own source).eraseIdx pos), none)
  | appendAll _ source =>
    (splice list list.length (own source), Function.update own source [], none)

end Operation

namespace Lists

/-- The state in which nobody is in an operation. -/
def start (lists : κ → List T) (own : ι → ν → List T) : Lists κ ι ν T R :=
  ⟨fun w => .create (lists w), fun i => ⟨own i, fun _ => none, none⟩, []⟩

/-- One step. -/
def step (s : Lists κ ι ν T R) : ListsAction κ ι ν T R → Option (Lists κ ι ν T R)
  | .lock i op =>
    let th := s.threads i
    if op.UsesOwn → th.handing = none then
      ((s.wrappers op.target).proxy (fun list => op.run th.own list) .lock).map fun p =>
        { wrappers := Function.update s.wrappers op.target p.1
          threads := Function.update s.threads i { th with
            proxies := Function.update th.proxies op.target (some ⟨op, .call, s.log.length⟩)
            handing := if op.UsesOwn then some op.target else th.handing }
          log := s.log ++ [.operation i op .pending] }
    else none
  | .call i w throws =>
    let th := s.threads i
    (th.proxies w).bind fun p =>
      if p.pc = .call ∧ p.operation.Valid th.own then
        if throws then some
          { s with
            threads := Function.update s.threads i { th with
              proxies := Function.update th.proxies w (some { p with pc := .unlock })
              handing := th.handingAfter w }
            log := s.log.set p.place (.operation i p.operation .threw) }
        else ((s.wrappers w).proxy (fun list => p.operation.run th.own list) .call).bind fun q =>
          q.2.1.map fun r =>
            { wrappers := Function.update s.wrappers w q.1
              threads := Function.update s.threads i
                { own := r.1
                  proxies := Function.update th.proxies w (some { p with pc := .unlock })
                  handing := th.handingAfter w }
              log := s.log.set p.place (.operation i p.operation (.returned r.2)) }
      else none
  | .unlock i w =>
    let th := s.threads i
    (th.proxies w).bind fun p =>
      ((s.wrappers w).proxy (fun list => p.operation.run th.own list) .unlock).map fun q =>
        { wrappers := Function.update s.wrappers w q.1
          threads := Function.update s.threads i { th with
            proxies := Function.update th.proxies w none
            handing := th.handingAfter w }
          log := if p.pc = .call then s.log.set p.place (.operation i p.operation .threw)
            else s.log }
  | .change i own =>
    let th := s.threads i
    if th.handing = none then some
      { s with
        threads := Function.update s.threads i { th with own := own }
        log := s.log ++ [.change i own] }
    else none

end Lists

/-- The wrapped lists and any number of threads. -/
def wrappedLists (lists : κ → List T) (own : ι → ν → List T) :
    Machine (Lists κ ι ν T R) (ListsAction κ ι ν T R) where
  init s := s = .start lists own
  next := Lists.step

namespace Lists

/-- The steps, by what they do. -/
inductive Advances (s : Lists κ ι ν T R) : ListsAction κ ι ν T R → Lists κ ι ν T R → Prop
  | lock (i : ι) (op : Operation κ ν T R) (hfree : (s.wrappers op.target).locked = false)
      (hhanding : op.UsesOwn → (s.threads i).handing = none) :
      Advances s (.lock i op)
        { wrappers := Function.update s.wrappers op.target
            { s.wrappers op.target with locked := true }
          threads := Function.update s.threads i { s.threads i with
            proxies := Function.update (s.threads i).proxies op.target
              (some ⟨op, .call, s.log.length⟩)
            handing := if op.UsesOwn then some op.target else (s.threads i).handing }
          log := s.log ++ [.operation i op .pending] }
  | threw (i : ι) (w : κ) (p : CallProxy κ ν T R) (hp : (s.threads i).proxies w = some p)
      (hpc : p.pc = .call) :
      Advances s (.call i w true)
        { s with
          threads := Function.update s.threads i { s.threads i with
            proxies := Function.update (s.threads i).proxies w (some { p with pc := .unlock })
            handing := (s.threads i).handingAfter w }
          log := s.log.set p.place (.operation i p.operation .threw) }
  | returned (i : ι) (w : κ) (p : CallProxy κ ν T R) (hp : (s.threads i).proxies w = some p)
      (hpc : p.pc = .call) (hvalid : p.operation.Valid (s.threads i).own) (list : List T)
      (own : ν → List T) (r : Option R)
      (hrun : p.operation.run (s.threads i).own (s.wrappers w).data = (list, own, r)) :
      Advances s (.call i w false)
        { wrappers := Function.update s.wrappers w { s.wrappers w with data := list }
          threads := Function.update s.threads i
            { own := own
              proxies :=
                Function.update (s.threads i).proxies w (some { p with pc := .unlock })
              handing := (s.threads i).handingAfter w }
          log := s.log.set p.place (.operation i p.operation (.returned r)) }
  | unlock (i : ι) (w : κ) (p : CallProxy κ ν T R) (hp : (s.threads i).proxies w = some p)
      (hpc : p.pc ≠ .call) :
      Advances s (.unlock i w)
        { s with
          wrappers := Function.update s.wrappers w { s.wrappers w with locked := false }
          threads := Function.update s.threads i { s.threads i with
            proxies := Function.update (s.threads i).proxies w none
            handing := (s.threads i).handingAfter w } }
  | abandon (i : ι) (w : κ) (p : CallProxy κ ν T R) (hp : (s.threads i).proxies w = some p)
      (hpc : p.pc = .call) :
      Advances s (.unlock i w)
        { wrappers := Function.update s.wrappers w { s.wrappers w with locked := false }
          threads := Function.update s.threads i { s.threads i with
            proxies := Function.update (s.threads i).proxies w none
            handing := (s.threads i).handingAfter w }
          log := s.log.set p.place (.operation i p.operation .threw) }
  | change (i : ι) (own : ν → List T) (hhanding : (s.threads i).handing = none) :
      Advances s (.change i own)
        { s with
          threads := Function.update s.threads i { s.threads i with own := own }
          log := s.log ++ [.change i own] }

lemma advances_of_step {s t : Lists κ ι ν T R} {a : ListsAction κ ι ν T R}
    (h : s.step a = some t) : s.Advances a t := by
  cases a with
  | lock i op =>
    simp only [step] at h
    by_cases hhanding : op.UsesOwn → (s.threads i).handing = none
    · rw [if_pos hhanding] at h
      obtain ⟨⟨w', r, pc'⟩, hproxy, rfl⟩ := Option.map_eq_some_iff.mp h
      rcases Wrapper.proxy_cases hproxy with ⟨-, hfree, rfl, -, -⟩ | ⟨hpc, -⟩ | ⟨hpc, -⟩
      · exact .lock i op hfree hhanding
      · cases hpc
      · cases hpc
    · rw [if_neg hhanding] at h
      cases h
  | call i w throws =>
    obtain ⟨p, hp, h⟩ := Option.bind_eq_some_iff.mp h
    by_cases hguard : p.pc = .call ∧ p.operation.Valid (s.threads i).own
    · rw [if_pos hguard] at h
      obtain ⟨hpc, hvalid⟩ := hguard
      cases throws with
      | true =>
        obtain rfl := Option.some.inj h
        exact .threw i w p hp hpc
      | false =>
        simp only [Bool.false_eq_true, if_false] at h
        obtain ⟨⟨w', r, pc'⟩, hproxy, h⟩ := Option.bind_eq_some_iff.mp h
        obtain ⟨r', rfl, rfl⟩ := Option.map_eq_some_iff.mp h
        rcases Wrapper.proxy_cases hproxy with ⟨hpc', -⟩ | ⟨-, rfl, hr, -⟩ | ⟨hpc', -⟩
        · cases hpc'
        · obtain rfl := Option.some.inj hr
          exact .returned i w p hp hpc hvalid _ _ _ rfl
        · cases hpc'
    · rw [if_neg hguard] at h
      cases h
  | unlock i w =>
    obtain ⟨p, hp, h⟩ := Option.bind_eq_some_iff.mp h
    obtain ⟨⟨w', r, pc'⟩, hproxy, rfl⟩ := Option.map_eq_some_iff.mp h
    rcases Wrapper.proxy_cases hproxy with ⟨hpc, -⟩ | ⟨hpc, -⟩ | ⟨-, rfl, -⟩
    · cases hpc
    · cases hpc
    · by_cases hpc : p.pc = .call
      · simp only [hpc, if_true]
        exact .abandon i w p hp hpc
      · simp only [hpc, if_false]
        exact .unlock i w p hp hpc
  | change i own =>
    simp only [step] at h
    by_cases hhanding : (s.threads i).handing = none
    · rw [if_pos hhanding] at h
      obtain rfl := Option.some.inj h
      exact .change i own hhanding
    · rw [if_neg hhanding] at h
      cases h

end Lists

end EventManager
