import MVSync.Concurrency.Ownership
import MVSync.Pool.Memory

/-!
# The life of a task

What the memory holds of a task at every stage of its life, whichever threads
take part.  `CellOk` is a table: for each stage, what the cell of the task looks
like.  `Life` is that table for every task.  It also ties the guards of the
dispatcher to the bodies that were invoked, and the signalled semaphores to the
tasks that finished.  `Linked` relates a continuation to the cell of its
predecessor.

An operation changes the cell of one task.  `Life.modify` and `Linked.modify`
reduce the invariants to what the change does to that one cell.
-/

namespace MVSync

variable {V P : Type}

/-! ## What a chain computes -/

/-- `prog.Evals t o`: the body of `t`, run on what its predecessors return, has
outcome `o`.  A continuation whose predecessor panics is not run and panics as
well. -/
inductive Program.Evals (prog : Program V P) : TaskId → Except (Payload P) V → Prop where
  | root {t : TaskId} : prog.pred t = none → Evals prog t (prog.body t none)
  | next {t p : TaskId} {v : V} : prog.pred t = some p → Evals prog p (.ok v) →
      Evals prog t (prog.body t (some v))
  | skip {t p : TaskId} {q : Payload P} : prog.pred t = some p → Evals prog p (.error q) →
      Evals prog t (.error q)

/-- A task has at most one outcome. -/
theorem Program.Evals.unique {prog : Program V P} {t : TaskId} {o o' : Except (Payload P) V}
    (h : prog.Evals t o) (h' : prog.Evals t o') : o = o' := by
  induction h generalizing o' with
  | root hp => cases h' with
    | root => rfl
    | next hp' => simp [hp] at hp'
    | skip hp' => simp [hp] at hp'
  | next hp _ ih => cases h' with
    | root hp' => simp [hp] at hp'
    | next hp' hv =>
        obtain rfl := Option.some.inj (hp.symm.trans hp')
        cases ih hv
        rfl
    | skip hp' hq =>
        obtain rfl := Option.some.inj (hp.symm.trans hp')
        cases ih hq
  | skip hp _ ih => cases h' with
    | root hp' => simp [hp] at hp'
    | next hp' hv =>
        obtain rfl := Option.some.inj (hp.symm.trans hp')
        cases ih hv
    | skip hp' hq =>
        obtain rfl := Option.some.inj (hp.symm.trans hp')
        cases ih hq
        rfl

/-! ## The table of stages -/

/-- The outcome of the task is written. -/
def Stage.decided : Stage V P → Bool
  | .finished | .woken _ | .settled _ => true
  | _ => false

/-- The outcome of the task is written, and its signals are not all woken. -/
def Stage.settling : Stage V P → Bool
  | .finished | .woken _ => true
  | _ => false

/-- The completion signal of the task was not woken. -/
@[mk_iff]
structure Cell.Unwoken (c : Cell V P) : Prop where
  wakes : c.wakes = []
  queueWakes : c.queueWakes = []
  takes : c.takes = []
  ready : c.signal.ready = false
  result : c.result = none

/-- Neither the outcome of the task is written nor its signal woken.  A `cancel`
may have come. -/
@[mk_iff]
structure Cell.Open (c : Cell V P) : Prop extends c.Unwoken where
  state : c.state = .pending ∧ c.cancelled = false ∨ c.state = .cancelled ∧ c.cancelled = true

/-- The outcome of the task is written.  A `cancel` may have come since. -/
def Cell.Decided (prog : Program V P) (t : TaskId) (c : Cell V P) : Finish → Prop
  | .returned =>
      (c.state = .ready ∨ c.state = .cancelled) ∧ (∃ r, prog.Evals t (.ok r)) ∧
        (∀ r, c.buffer = some r → prog.Evals t (.ok r)) ∧ (c.result = none → c.buffer ≠ none)
  | .panicked =>
      ((∃ q, c.state = .panicked q) ∨ c.state = .cancelled) ∧ ∃ q, prog.Evals t (.error q)
  | .cancelled => c.state = .cancelled
  | .silent => False

/-- The flag of the completion signal after its one wake: up, until a wait takes
it. -/
def Cell.Flagged (c : Cell V P) : Prop :=
  c.takes = [] ∧ c.signal.ready = true ∨ (∃ k, c.takes = [k]) ∧ c.signal.ready = false

/-- What is known of a result that was handed out. -/
def Cell.ResultOk (prog : Program V P) (t : TaskId) (c : Cell V P) : TaskResult V P → Prop
  | .returned v => prog.Evals t (.ok v) ∧ c.finish = some .returned
  | .panicked q => q = .unit ∧ c.finish = some .panicked
  | .cancelled => c.state = .cancelled

/-- The outcome of the task is written and its signal is woken. -/
@[mk_iff]
structure Cell.Woken (prog : Program V P) (t : TaskId) (c : Cell V P) : Prop where
  decided : ∃ f, c.finish = some f ∧ c.Decided prog t f
  flag : c.Flagged
  result : ∀ r, c.result = some r → c.ResultOk prog t r

/-- What the cell of a task holds at a stage. -/
def CellOk (prog : Program V P) (t : TaskId) (c : Cell V P) : Prop :=
  match c.stage with
  | .fresh | .passed | .tookFlag | .tookResult _ =>
      c.Open ∧ c.invoked = [] ∧ c.finish = none ∧ c.buffer = none
  | .running v => c.Open ∧ c.invoked = [v] ∧ c.finish = none ∧ c.buffer = none
  | .returned r =>
      c.Open ∧ c.finish = some .returned ∧ c.buffer = none ∧ prog.Evals t (.ok r)
  | .written => c.Open ∧ c.finish = some .returned ∧ ∃ r, c.buffer = some r ∧ prog.Evals t (.ok r)
  | .panicking => c.Open ∧ c.finish = some .panicked ∧ ∃ q, prog.Evals t (.error q)
  | .finished => c.Unwoken ∧ ∃ f, c.finish = some f ∧ c.Decided prog t f
  | .woken s => c.Woken prog t ∧ c.wakes = [s] ∧ c.queueWakes = []
  | .settled s => c.Woken prog t ∧ c.wakes = [s] ∧ c.queueWakes = [s]

section

variable {prog : Program V P} {t : TaskId} {c : Cell V P}

/-- A task is in one of two phases. -/
theorem CellOk.phase (h : CellOk prog t c) :
    c.Unwoken ∨
      c.Woken prog t ∧ ∃ s, (c.stage = .woken s ∨ c.stage = .settled s) ∧ c.wakes = [s] := by
  unfold CellOk at h
  split at h
  case h_10 s hs => exact .inr ⟨h.1, s, .inl hs, h.2.1⟩
  case h_11 s hs => exact .inr ⟨h.1, s, .inr hs, h.2.1⟩
  case h_9 => exact .inl h.1
  all_goals exact .inl h.1.toUnwoken

theorem CellOk.woken_of_wakes (h : CellOk prog t c) (hw : c.wakes ≠ []) : c.Woken prog t := by
  rcases h.phase with hu | ⟨hk, -⟩
  · exact absurd hu.wakes hw
  · exact hk

theorem CellOk.woken_of_ready (h : CellOk prog t c) (hr : c.signal.ready = true) :
    c.Woken prog t ∧ c.takes = [] ∧
      ∃ s, (c.stage = .woken s ∨ c.stage = .settled s) ∧ c.wakes = [s] := by
  rcases h.phase with hu | ⟨hk, hs⟩
  · simp [hu.ready] at hr
  · refine ⟨hk, ?_, hs⟩
    rcases hk.flag with ⟨ht, -⟩ | ⟨-, hf⟩
    · exact ht
    · simp [hf] at hr

theorem CellOk.resultOk (h : CellOk prog t c) {r : TaskResult V P} (hr : c.result = some r) :
    c.ResultOk prog t r ∧ c.wakes ≠ [] := by
  rcases h.phase with hu | ⟨hk, s, -, hs⟩
  · simp [hu.result] at hr
  · exact ⟨hk.result r hr, by simp [hs]⟩

theorem Cell.Decided.state_ne_pending {f : Finish} (h : c.Decided prog t f) :
    c.state ≠ .pending := by
  intro hs
  cases f with
  | returned => simp [Cell.Decided, hs] at h
  | panicked => simp [Cell.Decided, hs] at h
  | cancelled => simp [Cell.Decided, hs] at h
  | silent => exact h

theorem CellOk.decided_of_stage (h : CellOk prog t c) (hd : c.stage.decided = true) :
    ∃ f, c.finish = some f ∧ c.Decided prog t f := by
  unfold CellOk at h
  split at h
  case h_9 => exact h.2
  case h_10 => exact h.1.decided
  case h_11 => exact h.1.decided
  all_goals simp_all [Stage.decided]

/-- The completion signal of a task is woken when its outcome is written. -/
theorem CellOk.stage_decided (h : CellOk prog t c) (hw : c.wakes ≠ []) :
    c.stage.decided = true := by
  rcases h.phase with hu | ⟨-, s, hs | hs, -⟩
  · exact absurd hu.wakes hw
  · simp [hs, Stage.decided]
  · simp [hs, Stage.decided]

/-- A task whose outcome is `Ready` or `Panicked` finished so. -/
theorem CellOk.decided_of_state (h : CellOk prog t c) (hp : c.state ≠ .pending)
    (hc : c.state ≠ .cancelled) :
    c.stage.decided = true ∧ ∃ f, c.finish = some f ∧ c.Decided prog t f := by
  have hopen : ¬c.Open := fun ho => by
    rcases ho.state with ⟨hs, -⟩ | ⟨hs, -⟩
    · exact hp hs
    · exact hc hs
  unfold CellOk at h
  split at h
  case h_9 hs => exact ⟨by simp [hs, Stage.decided], h.2⟩
  case h_10 hs => exact ⟨by simp [hs, Stage.decided], h.1.decided⟩
  case h_11 hs => exact ⟨by simp [hs, Stage.decided], h.1.decided⟩
  all_goals exact absurd h.1 hopen

theorem CellOk.evals_of_returned (h : CellOk prog t c) (hf : c.finish = some .returned) :
    ∃ r, prog.Evals t (.ok r) := by
  have hd : ∀ f, c.finish = some f → c.Decided prog t f → ∃ r, prog.Evals t (.ok r) := by
    intro f hf' hd
    obtain rfl := Option.some.inj (hf'.symm.trans hf)
    exact hd.2.1
  unfold CellOk at h
  split at h
  case h_6 => exact ⟨_, h.2.2.2⟩
  case h_7 => exact h.2.2.imp fun _ hr => hr.2
  case h_8 => simp [hf] at h
  case h_9 => exact h.2.elim fun f hf => hd f hf.1 hf.2
  case h_10 => exact h.1.decided.elim fun f hf => hd f hf.1 hf.2
  case h_11 => exact h.1.decided.elim fun f hf => hd f hf.1 hf.2
  all_goals simp [hf] at h

theorem CellOk.evals_of_panicked (h : CellOk prog t c) (hf : c.finish = some .panicked) :
    ∃ q, prog.Evals t (.error q) := by
  have hd : ∀ f, c.finish = some f → c.Decided prog t f → ∃ q, prog.Evals t (.error q) := by
    intro f hf' hd
    obtain rfl := Option.some.inj (hf'.symm.trans hf)
    exact hd.2
  unfold CellOk at h
  split at h
  case h_8 => exact h.2.2
  case h_9 => exact h.2.elim fun f hf => hd f hf.1 hf.2
  case h_10 => exact h.1.decided.elim fun f hf => hd f hf.1 hf.2
  case h_11 => exact h.1.decided.elim fun f hf => hd f hf.1 hf.2
  all_goals simp [hf] at h

theorem CellOk.finish_of_ready (h : CellOk prog t c) (hs : c.state = .ready) :
    c.finish = some .returned := by
  obtain ⟨-, f, hf, hd⟩ := h.decided_of_state (by simp [hs]) (by simp [hs])
  cases f with
  | returned => exact hf
  | panicked => simp [Cell.Decided, hs] at hd
  | cancelled => simp [Cell.Decided, hs] at hd
  | silent => exact hd.elim

theorem CellOk.finish_of_panicked (h : CellOk prog t c) {q : Payload P}
    (hs : c.state = .panicked q) : c.finish = some .panicked := by
  obtain ⟨-, f, hf, hd⟩ := h.decided_of_state (by simp [hs]) (by simp [hs])
  cases f with
  | returned => simp [Cell.Decided, hs] at hd
  | panicked => exact hf
  | cancelled => simp [Cell.Decided, hs] at hd
  | silent => exact hd.elim

end

/-- What a continuation at stage `st` knows of the cell of its predecessor. -/
def LinkOk (st : Stage V P) (c : Cell V P) : Prop :=
  match st with
  | .fresh | .passed => c.result = none ∧ ∀ k ∈ c.takes, k = .observer
  | .tookFlag => c.result = none ∧ c.wakes ≠ []
  | .tookResult r => c.result = some r ∧ c.wakes ≠ []
  | _ => True

/-! ## The invariants -/

/-- The task was found executable, and its body was not invoked yet. -/
def Stage.waits : Stage V P → Bool
  | .passed | .tookFlag | .tookResult _ => true
  | _ => false

section

variable (prog : Program V P) (m : Shared V P)

/-- Every semaphore that `t` waits on is signalled. -/
def Waited (t : TaskId) : Prop := ∀ s ∈ prog.wait t, m.sem s = true

/-- `v` is what the body of `t` is to be invoked with. -/
def Input (t : TaskId) (v : Option V) : Prop :=
  (prog.pred t = none ∧ v = none) ∨
    ∃ p a, prog.pred t = some p ∧ v = some a ∧ (m.cell p).result = some (.returned a)

/-- `cancel` was called on some task. -/
def SomeCancel : Prop := ∃ u, (m.cell u).cancelled = true

/-- The invariant of the cells. -/
structure Life : Prop where
  cell : ∀ t, CellOk prog t (m.cell t)
  waited : ∀ t, (m.cell t).stage.waits = true → Waited prog m t
  invoked : ∀ t, ∀ v ∈ (m.cell t).invoked,
    (m.cell t).invoked = [v] ∧ Waited prog m t ∧ Input prog m t v
  signalled : ∀ t, (m.cell t).wakes ≠ [] → ∀ s ∈ prog.semaphores t, m.sem s = true
  cancelled : ∀ t, (m.cell t).state = .cancelled → SomeCancel m
  sem : ∀ s, m.sem s = true → ∃ t, s ∈ prog.semaphores t ∧ (m.cell t).finish ≠ none

/-- The invariant of the continuations. -/
def Linked : Prop := ∀ t p, prog.pred t = some p → LinkOk (m.cell t).stage (m.cell p)

end

variable {prog : Program V P} {m : Shared V P}

theorem Life.init (cfg : Specs) : Life prog (.init cfg) where
  cell t := ⟨⟨⟨rfl, rfl, rfl, rfl, rfl⟩, .inl ⟨rfl, rfl⟩⟩, rfl, rfl, rfl⟩
  waited t h := by simp [Shared.init, Cell.init, Stage.waits] at h
  invoked t v h := by simp [Shared.init, Cell.init] at h
  signalled t h := by simp [Shared.init, Cell.init] at h
  cancelled t h := by simp [Shared.init, Cell.init] at h
  sem s h := by simp [Shared.init] at h

theorem Linked.init (cfg : Specs) : Linked prog (.init cfg) :=
  fun _ _ _ => ⟨rfl, by simp [Shared.init, Cell.init]⟩

/-! ## Changing one cell -/

theorem Input.mono {m' : Shared V P} {t : TaskId} {v : Option V} (h : Input prog m t v)
    (hr : ∀ p r, (m.cell p).result = some r → (m'.cell p).result = some r) :
    Input prog m' t v := by
  rcases h with h | ⟨p, a, hp, hv, ha⟩
  · exact .inl h
  · exact .inr ⟨p, a, hp, hv, hr p _ ha⟩

/-- A change of the cell of `t` to `c'` takes nothing back that was handed out,
and what it adds is allowed. -/
structure Kept (prog : Program V P) (m : Shared V P) (t : TaskId) (c' : Cell V P) : Prop where
  invoked : ∀ v ∈ c'.invoked, c'.invoked = [v] ∧ Waited prog m t ∧ Input prog m t v
  signalled : c'.wakes ≠ [] → ∀ s ∈ prog.semaphores t, m.sem s = true
  cancelled : c'.state = .cancelled → SomeCancel m ∨ c'.cancelled = true
  result : ∀ r, (m.cell t).result = some r → c'.result = some r
  cancels : (m.cell t).cancelled = true → c'.cancelled = true
  finish : (m.cell t).finish ≠ none → c'.finish ≠ none

/-- The fields that a change does not touch are kept. -/
theorem Life.kept (h : Life prog m) (t : TaskId) : Kept prog m t (m.cell t) where
  invoked := h.invoked t
  signalled := h.signalled t
  cancelled hc := .inl (h.cancelled t hc)
  result _ := id
  cancels := id
  finish := id

/-- The one-cell rule.  The change of the cell of `t` has to keep what the table
says of it. -/
theorem Life.modify (h : Life prog m) {t : TaskId} {f : Cell V P → Cell V P}
    (cell : CellOk prog t (f (m.cell t)))
    (waited : (f (m.cell t)).stage.waits = true → Waited prog m t)
    (kept : Kept prog m t (f (m.cell t))) :
    Life prog (m.modify t f) := by
  have hresult : ∀ p r, (m.cell p).result = some r → ((m.modify t f).cell p).result = some r := by
    intro p r hp
    by_cases hpt : p = t
    · subst hpt
      rw [Shared.modify_cell_self]
      exact kept.result r hp
    · rwa [Shared.modify_cell_of_ne _ _ hpt]
  have hcancel : SomeCancel m → SomeCancel (m.modify t f) := by
    rintro ⟨u, hu⟩
    refine ⟨u, ?_⟩
    by_cases hut : u = t
    · subst hut
      rw [Shared.modify_cell_self]
      exact kept.cancels hu
    · rwa [Shared.modify_cell_of_ne _ _ hut]
  refine ⟨fun u => ?_, fun u hu => ?_, fun u v hu => ?_, fun u hu => ?_, fun u hu => ?_,
    fun s hs => ?_⟩
  all_goals try by_cases hut : u = t
  all_goals try subst hut
  all_goals try rw [Shared.modify_cell_self] at *
  all_goals try rw [Shared.modify_cell_of_ne _ _ hut] at *
  · exact cell
  · exact h.cell u
  · exact waited hu
  · exact h.waited u hu
  · obtain ⟨h₁, h₂, h₃⟩ := kept.invoked v hu
    exact ⟨h₁, h₂, h₃.mono hresult⟩
  · obtain ⟨h₁, h₂, h₃⟩ := h.invoked u v hu
    exact ⟨h₁, h₂, h₃.mono hresult⟩
  · exact kept.signalled hu
  · exact h.signalled u hu
  · rcases kept.cancelled hu with hc | hc
    · exact hcancel hc
    · exact ⟨u, by rw [Shared.modify_cell_self]; exact hc⟩
  · exact hcancel (h.cancelled u hu)
  · obtain ⟨u, hu, hf⟩ := h.sem s hs
    refine ⟨u, hu, ?_⟩
    by_cases hut : u = t
    · subst hut
      rw [Shared.modify_cell_self]
      exact kept.finish hf
    · rwa [Shared.modify_cell_of_ne _ _ hut]

/-- The one-cell rule for the continuations: what the continuation of `t` knows
has to stay true, and `t` has to know what its new stage says. -/
theorem Linked.modify (h : Linked prog m) {t : TaskId} {f : Cell V P → Cell V P}
    (succ : ∀ u, prog.pred u = some t → LinkOk (m.cell u).stage (m.cell t) →
      LinkOk (m.cell u).stage (f (m.cell t)))
    (pred : ∀ p, prog.pred t = some p → LinkOk (m.cell t).stage (m.cell p) →
      LinkOk (f (m.cell t)).stage (m.cell p)) :
    Linked prog (m.modify t f) := by
  intro u p hp
  by_cases hut : u = t
  · subst hut
    rw [Shared.modify_cell_self, Shared.modify_cell_of_ne _ _ (Nat.ne_of_lt (Program.pred_lt hp))]
    exact pred p hp (h u p hp)
  · rw [Shared.modify_cell_of_ne _ _ hut]
    by_cases hpt : p = t
    · subst hpt
      rw [Shared.modify_cell_self]
      exact succ u hp (h u p hp)
    · rw [Shared.modify_cell_of_ne _ _ hpt]
      exact h u p hp

end MVSync
