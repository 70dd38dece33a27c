import MVSync.Pool.Threads

/-!
# Guards and settlement

What every run of the pool keeps about the guards of a task and about its
settlement, whatever is cancelled and in both scheduling modes.  A body is
invoked only after everything it depends on has finished, and a completion
signal is woken once, by one site, after the state was written and the
semaphores were signalled.
-/

namespace MVSync

open Concurrency Pool

variable {V P : Type} {cfg : Specs} {prog : Program V P} {m : Shared V P} {t : TaskId}

/-! ## Dependencies -/

/-- The task returned, panicked, or was settled as cancelled. -/
def Cell.Finished (c : Cell V P) : Prop :=
  c.finish = some .returned ∨ c.finish = some .panicked ∨ c.finish = some .cancelled

/-- No task ends without writing a state. -/
theorem CellOk.finish_ne_silent {c : Cell V P} (h : CellOk prog t c) :
    c.finish ≠ some .silent := by
  intro hf
  have hd : ¬∃ f, c.finish = some f ∧ c.Decided prog t f := by
    rintro ⟨f, hf', hd⟩
    obtain rfl := Option.some.inj (hf'.symm.trans hf)
    exact hd
  unfold CellOk at h
  split at h
  case h_9 => exact hd h.2
  case h_10 => exact hd h.1.decided
  case h_11 => exact hd h.1.decided
  all_goals simp [hf] at h

theorem CellOk.finished {c : Cell V P} (h : CellOk prog t c) (hf : c.finish ≠ none) :
    c.Finished := by
  obtain ⟨f, hf'⟩ := Option.ne_none_iff_exists'.mp hf
  cases f with
  | returned => exact .inl hf'
  | panicked => exact .inr (.inl hf')
  | cancelled => exact .inr (.inr hf')
  | silent => exact absurd hf' h.finish_ne_silent

/-- A signalled semaphore was signalled by a task that has finished. -/
theorem Life.signaller (h : Life prog m) {g : SemId} (hg : m.sem g = true) :
    ∃ u, g ∈ prog.semaphores u ∧ (m.cell u).Finished :=
  (h.sem g hg).imp fun u hu => ⟨hu.1, (h.cell u).finished hu.2⟩

/-- Dependency safety.  A body that was invoked has all its semaphores
signalled by tasks that have finished, and its predecessor returned the value it
was invoked with.  A semaphore is signalled only by a task that has finished,
and no step unsignals it. -/
theorem Pool.Reachable.dependencies {s : (pool cfg prog).State} (h : Reachable s) :
    (∀ t v, v ∈ (s.mem.cell t).invoked →
      (∀ g ∈ prog.wait t, ∃ u, g ∈ prog.semaphores u ∧ (s.mem.cell u).Finished) ∧
        ∀ p, prog.pred t = some p → (s.mem.cell p).finish = some .returned ∧
          ∃ a, v = some a ∧ (s.mem.cell p).result = some (.returned a)) ∧
      (∀ g, s.mem.sem g = true → ∃ u, g ∈ prog.semaphores u ∧ (s.mem.cell u).Finished) ∧
      ∀ a s', s.step a = some s' → ∀ g, s.mem.sem g = true → s'.mem.sem g = true := by
  have hl := h.inv.life
  refine ⟨fun t v hv => ⟨fun g hg => ?_, fun p hp => ?_⟩, fun g => hl.signaller,
    fun a s' hs => (h.grows hs).sem⟩
  · obtain ⟨-, hw, -⟩ := hl.invoked t v hv
    exact hl.signaller (hw g hg)
  · obtain ⟨-, -, hin⟩ := hl.invoked t v hv
    rcases hin with ⟨hnone, -⟩ | ⟨p', a, hp', rfl, ha⟩
    · simp [hp] at hnone
    · obtain rfl := Option.some.inj (hp.symm.trans hp')
      exact ⟨((hl.cell p).resultOk ha).1.2, a, rfl, ha⟩

set_option maxRecDepth 2000

/-- Two functions in a chain: `5`, and the successor. -/
def successorChain : Program Nat Nat := .chain false 1 fun _ v => .ok (v.elim 5 (· + 1))

/-- The chain was submitted and ran to its end. -/
def successorRun : (pool Specs.one successorChain).State :=
  (poolInit Specs.one successorChain).after (submits 0 [0, 1] ++ turns 40)

theorem successorRun_reachable : Reachable successorRun := .after _ .init

/-- The continuation of a run was invoked with what its predecessor returned. -/
theorem Pool.dependencies_successorRun :
    (successorRun.mem.cell 0).finish = some .returned ∧
      ∃ a, some 5 = some a ∧ (successorRun.mem.cell 0).result = some (.returned a) :=
  (successorRun_reachable.dependencies.1 1 (some 5) (by decide)).2 0 rfl

/-! ## Settlement -/

/-- Thread `i` is inside a poll of the future of `t`, at `p`. -/
def Pool.Polls (s : (pool cfg prog).State) (i : Tid) (t : TaskId) (p : PollPc V P) : Prop :=
  match i with
  | .dispatcher => False
  | .worker w => ∃ x kept todo, worker s w = .poll x p kept todo ∧ x.id = t
  | .caller e => ∃ x q, caller s e = .poll x p q ∧ x.id = t

/-- Thread `i` keeps the future of `t` to poll it. -/
def Pool.Keeps (s : (pool cfg prog).State) (i : Tid) (t : TaskId) : Prop :=
  match i with
  | .dispatcher => False
  | .worker w => ∃ f ∈ (worker s w).futures, f.task.id = t
  | .caller e => ∃ x v q, caller s e = .block x v q ∧ x.id = t

/-- The settlement of a task whose completion signal was woken. -/
structure Pool.Settled (s : (pool cfg prog).State) (t : TaskId) : Prop where
  /-- The state is written. -/
  state : (s.mem.cell t).state ≠ .pending
  /-- The semaphores are signalled. -/
  semaphores : ∀ g ∈ prog.semaphores t, s.mem.sem g = true
  /-- The future is not polled, and nobody keeps it. -/
  polls : ∀ i p, ¬Polls s i t p
  keeps : ∀ i, ¬Keeps s i t
  /-- One site woke the completion signal, once, and no other site the second
  signal. -/
  site : ∃ site, (s.mem.cell t).wakes = [site] ∧
    ((s.mem.cell t).queueWakes = [] ∨ (s.mem.cell t).queueWakes = [site])

/-- No `TaskHandle::wait` is about to panic, neither the one of a caller nor the
one in the future of a continuation. -/
structure Pool.WaitsSafe (s : (pool cfg prog).State) : Prop where
  takeState : ∀ e t, caller s e = .takeState t → (s.mem.cell t).state ≠ .pending
  takeBuffer : ∀ e t, caller s e = .takeBuffer t → (s.mem.cell t).buffer ≠ none
  pollState : ∀ i t p, Polls s i t (.takeState p) → (s.mem.cell p).state ≠ .pending
  pollBuffer : ∀ i t p, Polls s i t (.takeBuffer p) → (s.mem.cell p).buffer ≠ none
  /-- A continuation that reads `Ready` has a returned value. -/
  pollReady : ∀ i t p r, Polls s i t (.readState p r) → (s.mem.cell p).state = .ready →
    ∃ v, r = .returned v

namespace Pool.Reachable

variable {s : (pool cfg prog).State}

/-- A thread that polls a task has it, at the stage of its position. -/
theorem polls (h : Reachable s) {i : Tid} {p : PollPc V P} (hp : Polls s i t p) :
    ∃ x, x.id = t ∧ s.mem.At i x.id p.stage ∧ p.Knows prog x s.mem := by
  cases i with
  | dispatcher => exact hp.elim
  | worker w =>
      obtain ⟨x, kept, todo, hw, rfl⟩ := hp
      have hloc := h.worker w
      rw [hw] at hloc
      exact ⟨x, rfl, hloc.tasks.head_at, hloc.knows⟩
  | caller e =>
      obtain ⟨x, q, he, rfl⟩ := hp
      have hloc := h.caller e
      rw [he] at hloc
      exact ⟨x, rfl, (hloc.tasks _ rfl).head_at, hloc.knows⟩

/-- The completion signal of a task that is polled was not woken. -/
theorem unwoken_of_polls (h : Reachable s) {i : Tid} {p : PollPc V P} (hp : Polls s i t p) :
    (s.mem.cell t).wakes = [] := by
  obtain ⟨x, rfl, ha, -⟩ := h.polls hp
  have hc := h.inv.life.cell x.id
  rw [CellOk, ha.2] at hc
  cases p <;> exact hc.1.wakes

/-- The completion signal of a task whose future is kept was not woken. -/
theorem unwoken_of_keeps (h : Reachable s) {i : Tid} (hk : Keeps s i t) :
    (s.mem.cell t).wakes = [] := by
  have hc := h.inv.life.cell t
  cases i with
  | dispatcher => exact hk.elim
  | worker w =>
      obtain ⟨⟨x, sus⟩, hf, rfl⟩ := hk
      rw [CellOk, (h.worker w).tasks.stage_of_mem (WorkerPc.mem_tasks hf)] at hc
      cases sus <;> exact hc.1.wakes
  | caller e =>
      obtain ⟨x, v, q, he, rfl⟩ := hk
      have hloc := h.caller e
      rw [he] at hloc
      rw [CellOk, (hloc.tasks _ rfl).head_stage] at hc
      exact hc.1.wakes

/-- A task whose completion signal was woken is settled, in every later state as
well. -/
theorem settled (h : Reachable s) (hw : (s.mem.cell t).wakes ≠ []) : Settled s t := by
  have hc := h.inv.life.cell t
  have hwok := hc.woken_of_wakes hw
  refine ⟨hwok.state_ne_pending, h.inv.life.signalled t hw,
    fun i p hp => hw (h.unwoken_of_polls hp),
    fun i hk => hw (h.unwoken_of_keeps hk), ?_⟩
  rcases hc.phase with hu | ⟨-, site, hs, hsite⟩
  · exact absurd hu.wakes hw
  refine ⟨site, hsite, ?_⟩
  rcases hs with hs | hs
  · rw [CellOk, hs] at hc
    exact .inl hc.2.2
  · rw [CellOk, hs] at hc
    exact .inr hc.2.2

/-- The second signal is not woken before the completion signal. -/
theorem queueWakes_eq_nil (h : Reachable s) (hw : (s.mem.cell t).wakes = []) :
    (s.mem.cell t).queueWakes = [] := by
  rcases (h.inv.life.cell t).phase with hu | ⟨-, site, -, hsite⟩
  · exact hu.queueWakes
  · simp [hw] at hsite

/-- What a continuation is about to take from its predecessor is there. -/
theorem waitsSafe (h : Reachable s) : WaitsSafe s where
  takeState e t he := by
    have hk := (h.caller e).knows
    rw [he] at hk
    exact ((h.inv.life.cell t).woken_of_wakes hk.2).state_ne_pending
  takeBuffer e t he := by
    have hk := (h.caller e).knows
    rw [he] at hk
    exact ((h.inv.life.cell t).woken_of_wakes hk.2.1).buffer_ne_none hk.2.2 hk.1.2.2
  pollState i t p hp := by
    obtain ⟨x, -, ha, hk⟩ := h.polls hp
    have hlink := h.inv.linked.at ha hk
    exact ((h.inv.life.cell p).woken_of_wakes hlink.2).state_ne_pending
  pollBuffer i t p hp := by
    obtain ⟨x, -, ha, hk⟩ := h.polls hp
    have hlink := h.inv.linked.at ha hk.1
    exact ((h.inv.life.cell p).woken_of_wakes hlink.2).buffer_ne_none hk.2 hlink.1
  pollReady i t p r hp hs := by
    obtain ⟨x, -, ha, hk⟩ := h.polls hp
    have hlink := h.inv.linked.at ha hk
    exact ((h.inv.life.cell p).woken_of_wakes hlink.2).result_of_ready hs hlink.1

/-- Settlement order.  When the completion signal of a task was woken, the task
is settled for good, and before that its second signal is not woken.  No wait on
a handle reaches one of its panics. -/
theorem settlement (h : Reachable s) :
    (∀ t, (s.mem.cell t).wakes ≠ [] → ∀ s', System.Reach s s' → Settled s' t) ∧
      (∀ t, (s.mem.cell t).wakes = [] → (s.mem.cell t).queueWakes = []) ∧ WaitsSafe s :=
  ⟨fun _ hw _ hr => settled (h.trans hr) ((h.grows_reach hr).wakes_ne_nil hw),
    fun _ => h.queueWakes_eq_nil, h.waitsSafe⟩

end Pool.Reachable

/-- The two tasks of a run are settled. -/
theorem Pool.settlement_successorRun : Settled successorRun 0 ∧ Settled successorRun 1 :=
  have h := successorRun_reachable.settlement
  ⟨h.1 0 (by decide) _ .init, h.1 1 (by decide) _ .init⟩

end MVSync
