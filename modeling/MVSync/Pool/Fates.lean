import MVSync.Pool.Effect

/-!
# How the tasks of a list end

The list that `run_all` is called with, and the ways in which its tasks can end, over all
of its orders.  What a task returns is the same in every order (`Ends.returned_unique`).

Whether a task ends `Cancelled` or `Panicked` is not.  A turn asks the predecessor first,
and a task that was cancelled itself is settled at once if the predecessor is still
undecided.  So a task that inherits a panic from another task of the list ends `Panicked`
or `Cancelled`, whichever of the two has the first turn, if one of them was cancelled.
-/

namespace MVSync

variable {V P : Type} {prog : Program V P} {m : Shared V P} {t p : TaskId} {ts : List TaskId}

namespace RunAll

/-! ## The list -/

/-- A task of the list waits for another one of it: for its predecessor, or for a task that
signals a semaphore which is not signalled yet. -/
def Depends (prog : Program V P) (m : Shared V P) (ts : List TaskId) (t u : TaskId) : Prop :=
  t ∈ ts ∧ u ∈ ts ∧
    (prog.pred t = some u ∨ ∃ s ∈ prog.wait t, m.sem s = false ∧ s ∈ prog.semaphores u)

/-- A list that `run_all` is called with. -/
structure Given (prog : Program V P) (m : Shared V P) (ts : List TaskId) : Prop where
  nodup : ts.Nodup
  /-- The tasks are new, up to a call of `cancel`. -/
  fresh : ∀ t ∈ ts, ((m.cell t).state = .pending ∨ (m.cell t).state = .cancelled) ∧
    (m.cell t).invoked = []
  returns : ∀ t ∈ ts, ∀ v, ∃ r, prog.body t v = .ok r
  signalled : ∀ t ∈ ts, ∀ s ∈ prog.wait t, m.sem s = true ∨ ∃ u ∈ ts, s ∈ prog.semaphores u
  decided : ∀ t ∈ ts, ∀ p, prog.pred t = some p → p ∈ ts ∨ (m.cell p).state ≠ .pending
  /-- The result of a predecessor is still there, since only the continuation takes it. -/
  result : ∀ t ∈ ts, ∀ p, prog.pred t = some p → p ∉ ts → (m.cell p).state = .ready →
    (m.cell p).buffer ≠ none
  acyclic : ∀ t, ¬Relation.TransGen (Depends prog m ts) t t

/-- Nobody has waited for the completion of a predecessor that is not in the list. -/
def Untaken (prog : Program V P) (m : Shared V P) (ts : List TaskId) : Prop :=
  ∀ t ∈ ts, ∀ p, prog.pred t = some p → p ∉ ts → (m.cell p).state = .ready →
    (m.cell p).signal.ready = true

/-- What a task can end with, in some order of the list. -/
inductive Ends (prog : Program V P) (m : Shared V P) (ts : List TaskId) :
    TaskId → Fate V → Prop where
  | wasReady {p : TaskId} {v : V} (hp : p ∉ ts) (hs : (m.cell p).state = .ready)
      (hb : (m.cell p).buffer = some v) : Ends prog m ts p (.returned v)
  | wasCancelled {p : TaskId} (hp : p ∉ ts) (hs : (m.cell p).state = .cancelled) :
      Ends prog m ts p .cancelled
  | wasPanicked {p : TaskId} {q : Payload P} (hp : p ∉ ts) (hs : (m.cell p).state = .panicked q) :
      Ends prog m ts p .panicked
  | root {t : TaskId} {r : V} (ht : t ∈ ts) (hc : (m.cell t).state ≠ .cancelled)
      (hp : prog.pred t = none) (hr : prog.body t none = .ok r) : Ends prog m ts t (.returned r)
  | next {t p : TaskId} {v r : V} (ht : t ∈ ts) (hc : (m.cell t).state ≠ .cancelled)
      (hp : prog.pred t = some p) (h : Ends prog m ts p (.returned v))
      (hr : prog.body t (some v) = .ok r) : Ends prog m ts t (.returned r)
  | cancelled {t : TaskId} (ht : t ∈ ts) (hc : (m.cell t).state = .cancelled)
      (hp : ∀ p, prog.pred t = some p → p ∉ ts → ∀ q, (m.cell p).state ≠ .panicked q) :
      Ends prog m ts t .cancelled
  /-- The turn of a task comes before the one of its predecessor, which was cancelled. -/
  | early {t p : TaskId} (ht : t ∈ ts) (hp : prog.pred t = some p) (hpt : p ∈ ts)
      (hc : (m.cell p).state = .cancelled) : Ends prog m ts t .cancelled
  | inheritsCancelled {t p : TaskId} (ht : t ∈ ts) (hp : prog.pred t = some p)
      (h : Ends prog m ts p .cancelled) : Ends prog m ts t .cancelled
  | inheritsPanicked {t p : TaskId} (ht : t ∈ ts) (hp : prog.pred t = some p)
      (h : Ends prog m ts p .panicked) : Ends prog m ts t .panicked

/-- A predecessor that panicked is inherited from one task of the list to the next. -/
inductive Inherits (prog : Program V P) (m : Shared V P) (ts : List TaskId) : TaskId → Prop where
  | first {t p : TaskId} {q : Payload P} (ht : t ∈ ts) (hp : prog.pred t = some p) (hpt : p ∉ ts)
      (hq : (m.cell p).state = .panicked q) : Inherits prog m ts t
  | next {t p : TaskId} (ht : t ∈ ts) (hp : prog.pred t = some p) (h : Inherits prog m ts p) :
      Inherits prog m ts t

/-- A task that inherits a panic from another task of the list, when one of the two was
cancelled, and the tasks after it. -/
inductive Contested (prog : Program V P) (m : Shared V P) (ts : List TaskId) : TaskId → Prop where
  | first {t p : TaskId} (ht : t ∈ ts) (hp : prog.pred t = some p) (h : Inherits prog m ts p)
      (hc : (m.cell t).state = .cancelled ∨ (m.cell p).state = .cancelled) :
      Contested prog m ts t
  | next {t p : TaskId} (ht : t ∈ ts) (hp : prog.pred t = some p) (h : Contested prog m ts p) :
      Contested prog m ts t

section

variable {r : V} {f f' : Fate V}

theorem Inherits.mem (h : Inherits prog m ts t) : t ∈ ts := by
  cases h <;> assumption

theorem Contested.mem (h : Contested prog m ts t) : t ∈ ts := by
  cases h <;> assumption

/-- A task that can return was not cancelled. -/
theorem Ends.not_cancelled (h : Ends prog m ts t (.returned r)) :
    (m.cell t).state ≠ .cancelled := by
  cases h with
  | wasReady _ hs => simp [hs]
  | root _ hc | next _ hc => exact hc

/-- A task that returns in one order returns the same in every order. -/
theorem Ends.returned_unique (h : Ends prog m ts t (.returned r)) (h' : Ends prog m ts t f) :
    f = .returned r := by
  generalize hf : Fate.returned r = g at h
  induction h generalizing r f with
  | wasReady hp hs hb =>
      cases h' with
      | wasReady _ _ hb' => rw [Option.some.inj (hb'.symm.trans hb)]
      | wasCancelled _ hs' | wasPanicked _ hs' => simp [hs] at hs'
      | root ht | next ht | cancelled ht | early ht | inheritsCancelled ht
      | inheritsPanicked ht => exact absurd ht hp
  | root ht hc hp hr =>
      cases h' with
      | wasReady hn | wasCancelled hn | wasPanicked hn => exact absurd ht hn
      | root _ _ _ hr' => rw [Except.ok.inj (hr'.symm.trans hr)]
      | cancelled _ hc' => exact absurd hc' hc
      | next _ _ hp' | early _ hp' | inheritsCancelled _ hp' | inheritsPanicked _ hp' =>
          simp [hp] at hp'
  | next ht hc hp h hr ih =>
      cases h' with
      | wasReady hn | wasCancelled hn | wasPanicked hn => exact absurd ht hn
      | root _ _ hp' => simp [hp] at hp'
      | next _ _ hp' h₂ hr' =>
          obtain rfl := Option.some.inj (hp.symm.trans hp')
          obtain ⟨rfl⟩ := ih h₂ rfl
          rw [Except.ok.inj (hr'.symm.trans hr)]
      | cancelled _ hc' => exact absurd hc' hc
      | early _ hp' _ hc' =>
          obtain rfl := Option.some.inj (hp.symm.trans hp')
          exact absurd hc' h.not_cancelled
      | inheritsCancelled _ hp' h₂ | inheritsPanicked _ hp' h₂ =>
          obtain rfl := Option.some.inj (hp.symm.trans hp')
          cases ih h₂ rfl
  | _ => cases hf

theorem Ends.inherits (h : Ends prog m ts t .panicked) (ht : t ∈ ts) : Inherits prog m ts t := by
  generalize hf : (Fate.panicked : Fate V) = f at h
  induction h with
  | wasPanicked hp => exact absurd ht hp
  | @inheritsPanicked t p ht hp h ih =>
      by_cases hpt : p ∈ ts
      · exact .next ht hp (ih hpt rfl)
      · cases h with
        | wasPanicked _ hs => exact .first ht hp hpt hs
        | inheritsPanicked hpt' => exact absurd hpt' hpt
  | _ => cases hf

/-- A task that inherits a panic in one order and is cancelled in another is contested. -/
theorem Inherits.contested (h : Inherits prog m ts t) (h' : Ends prog m ts t .cancelled) :
    Contested prog m ts t := by
  induction h with
  | @first t p q ht hp hpt hq =>
      cases h' with
      | wasCancelled hn => exact absurd ht hn
      | cancelled _ _ hno => exact absurd hq (hno p hp hpt q)
      | early _ hp' hpt' =>
          obtain rfl := Option.some.inj (hp.symm.trans hp')
          exact absurd hpt' hpt
      | inheritsCancelled _ hp' h₂ =>
          obtain rfl := Option.some.inj (hp.symm.trans hp')
          cases h₂ with
          | wasCancelled _ hs => simp [hq] at hs
          | cancelled hpt' | early hpt' | inheritsCancelled hpt' => exact absurd hpt' hpt
  | @next t p ht hp h ih =>
      cases h' with
      | wasCancelled hn => exact absurd ht hn
      | cancelled _ hc => exact .first ht hp h (.inl hc)
      | early _ hp' _ hc =>
          obtain rfl := Option.some.inj (hp.symm.trans hp')
          exact .first ht hp h (.inr hc)
      | inheritsCancelled _ hp' h₂ =>
          obtain rfl := Option.some.inj (hp.symm.trans hp')
          exact .next ht hp (ih h₂)

/-- A task that is not contested ends in one way. -/
theorem Ends.unique (ht : t ∈ ts) (hn : ¬Contested prog m ts t) (h : Ends prog m ts t f)
    (h' : Ends prog m ts t f') : f = f' := by
  cases f with
  | returned r => exact (h.returned_unique h').symm
  | cancelled =>
      cases f' with
      | returned r => exact h'.returned_unique h
      | cancelled => rfl
      | panicked => exact absurd ((h'.inherits ht).contested h) hn
  | panicked =>
      cases f' with
      | returned r => exact h'.returned_unique h
      | cancelled => exact absurd ((h.inherits ht).contested h') hn
      | panicked => rfl

end

end RunAll

end MVSync
