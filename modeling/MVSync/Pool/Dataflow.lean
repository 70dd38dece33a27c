import MVSync.Concurrency.Dataflow
import MVSync.Pool.Turn

/-!
# The pool refines a dataflow graph

What the pool is for.  The tasks of a program are the nodes of a graph: a predecessor hands
its value on, and a semaphore is an event.  A task has fired when its outcome is written.
Channels, slots, labels, passes and wake-ups are not in the graph.

While nobody cancels and no task is skipped out of turn, every step of the pool is a step of
the graph or none (`Pool.simulates`).  So what a task returns does not depend on the number
of threads, on the schedule, or on whether the tasks were run inline (`Pool.confluent`).
-/

namespace MVSync

open Concurrency Pool

variable {V P : Type} {cfg : Specs} {prog : Program V P} {m : Shared V P} {op : Op V P}
  {x : Task} {t u p : TaskId} {i : Tid}

/-! ## The graph of a program -/

/-- The tasks with their dependencies.  The value of a task is what its body returns, or
`none` when it panics. -/
def Program.graph (prog : Program V P) : Dataflow.Graph TaskId SemId (Option V) where
  pred := prog.pred
  waits t g := g ∈ prog.wait t
  signals t g := g ∈ prog.semaphores t
  eval t
    | none => (prog.body t none).toOption
    | some (some v) => (prog.body t (some v)).toOption
    -- a panic is handed on
    | some none => none

namespace Program.Evals

variable {o o' : Except (Payload P) V}

theorem eval_root (h : prog.Evals t o) (hp : prog.pred t = none) :
    prog.graph.eval t none = o.toOption := by
  cases h with
  | root => rfl
  | next hp' | skip hp' => simp [hp] at hp'

theorem eval_next (h : prog.Evals t o) (hp : prog.pred t = some p) (ho : prog.Evals p o') :
    prog.graph.eval t (some o'.toOption) = o.toOption := by
  cases h with
  | root hp' => simp [hp] at hp'
  | next hp' hv =>
      obtain rfl := Option.some.inj (hp.symm.trans hp')
      rw [ho.unique hv]
      rfl
  | skip hp' hq =>
      obtain rfl := Option.some.inj (hp.symm.trans hp')
      rw [ho.unique hq]
      rfl

end Program.Evals

/-! ## What a cell shows -/

/-- The cell shows the outcome: its state, and the value in the buffer or with whoever has
waited for it. -/
def Cell.Shows (c : Cell V P) : Except (Payload P) V → Prop
  | .ok v => c.state = .ready ∧
      (c.result = none ∧ c.buffer = some v ∨ c.result = some (.returned v))
  | .error _ => (∃ q, c.state = .panicked q) ∧
      (c.result = none ∨ c.result = some (.panicked .unit))

/-- The value that is with whoever has waited for it, or else in the buffer. -/
def Cell.value (c : Cell V P) : Option V :=
  match c.result with
  | some (.returned v) => some v
  | _ => c.buffer

/-- The value of a task that has an outcome. -/
def Cell.outcome (c : Cell V P) : Option (Option V) :=
  match c.state with
  | .ready => c.value.map some
  | .panicked _ => some none
  | .pending | .cancelled => none

theorem Cell.Shows.outcome {c : Cell V P} {o : Except (Payload P) V} (h : c.Shows o) :
    c.outcome = some o.toOption := by
  cases o with
  | ok v =>
      obtain ⟨hs, ⟨hr, hb⟩ | hr⟩ := h
      · simp [Cell.outcome, Cell.value, hs, hr, hb, Except.toOption]
      · simp [Cell.outcome, Cell.value, hs, hr, Except.toOption]
  | error q =>
      obtain ⟨⟨r, hs⟩, -⟩ := h
      simp [Cell.outcome, hs, Except.toOption]

/-- Without `cancel`, a cell shows what its task evaluates to once that is written. -/
theorem Cell.Decided.shows {c : Cell V P} {f : Finish} (hd : c.Decided prog t f)
    (hf : c.finish = some f) (hno : c.state ≠ .cancelled)
    (hres : ∀ r, c.result = some r → c.ResultOk prog t r) :
    ∃ o, prog.Evals t o ∧ c.Shows o := by
  have hcases : c.result = none ∨ (∃ v, c.result = some (.returned v) ∧ prog.Evals t (.ok v)) ∨
      c.result = some (.panicked .unit) ∧ f = .panicked := by
    cases hr : c.result with
    | none => exact .inl rfl
    | some r =>
        have hok := hres r hr
        cases r with
        | returned v => exact .inr (.inl ⟨v, rfl, hok.1⟩)
        | panicked q =>
            obtain ⟨rfl, hfin⟩ := hok
            exact .inr (.inr ⟨rfl, Option.some.inj (hf.symm.trans hfin)⟩)
        | cancelled => exact absurd hok hno
  cases f with
  | returned =>
      obtain ⟨hstate, ⟨v, hv⟩, hbuf, hsome⟩ := hd
      refine ⟨.ok v, hv, hstate.resolve_right hno, ?_⟩
      rcases hcases with hnone | ⟨u, hu, he⟩ | ⟨-, hp⟩
      · obtain ⟨b, hb⟩ := Option.ne_none_iff_exists'.mp (hsome hnone)
        rw [hb, Except.ok.inj ((hbuf b hb).unique hv)]
        exact .inl ⟨hnone, rfl⟩
      · rw [hu, Except.ok.inj (he.unique hv)]
        exact .inr rfl
      · cases hp
  | panicked =>
      obtain ⟨hstate, q, hq⟩ := hd
      refine ⟨.error q, hq, hstate.resolve_right hno, ?_⟩
      rcases hcases with hnone | ⟨u, -, he⟩ | ⟨hp, -⟩
      · exact .inl hnone
      · cases he.unique hq
      · exact .inr hp
  | cancelled => exact absurd hd hno
  | silent => exact hd.elim

theorem Life.state_ne_cancelled (h : Life prog m) (hc : ¬SomeCancel m) (t : TaskId) :
    (m.cell t).state ≠ .cancelled :=
  fun hs => hc (h.cancelled t hs)

/-- Without `cancel`, a task whose outcome is written shows it. -/
theorem Life.shows (h : Life prog m) (hc : ¬SomeCancel m)
    (hd : (m.cell t).stage.decided = true) : ∃ o, prog.Evals t o ∧ (m.cell t).Shows o := by
  have hno := h.state_ne_cancelled hc t
  have hcell := h.cell t
  obtain ⟨f, hf, hdec⟩ := hcell.decided_of_stage hd
  refine hdec.shows hf hno fun r hr => ?_
  exact (hcell.resultOk hr).1

/-- Without `cancel`, a task whose outcome is not written has none. -/
theorem Life.outcome_eq_none (h : Life prog m) (hc : ¬SomeCancel m)
    (hd : (m.cell t).stage.decided = false) : (m.cell t).outcome = none := by
  have hstate : (m.cell t).state = .pending := by
    by_contra hp
    have hdec := (h.cell t).decided_of_state hp (h.state_ne_cancelled hc t)
    simp [hd] at hdec
  simp [Cell.outcome, hstate]

theorem Life.outcome_eq_some (h : Life prog m) (hc : ¬SomeCancel m)
    (hd : (m.cell t).stage.decided = true) :
    ∃ o, prog.Evals t o ∧ (m.cell t).outcome = some o.toOption :=
  (h.shows hc hd).imp fun _ ho => ⟨ho.1, ho.2.outcome⟩

/-- Without `cancel`, the tasks that have an outcome are those whose outcome is written. -/
theorem Life.decided_of_outcome (h : Life prog m) (hc : ¬SomeCancel m)
    (ho : (m.cell t).outcome ≠ none) : (m.cell t).stage.decided = true := by
  by_contra hd
  exact ho (h.outcome_eq_none hc (Bool.eq_false_iff.mpr hd))

/-! ## Predecessors -/

/-- A predecessor whose panic is read has an outcome. -/
theorem Life.pred_decided (h : Life prog m) {q : Payload P}
    (hq : (m.predState x).take = .panicked q)
    (hp : x.inner.predecessor = some p) : (m.cell p).stage.decided = true := by
  have hne : (m.cell p).state ≠ .pending ∧ (m.cell p).state ≠ .cancelled := by
    rw [Shared.predState, hp] at hq
    change (m.cell p).state.take = _ at hq
    constructor
    · intro he
      rw [he] at hq
      cases hq
    · intro he
      rw [he] at hq
      cases hq
  exact ((h.cell p).decided_of_state hne.1 hne.2).1

theorem dispatcherNext_skips {d : DispatcherPc P} {st : TaskState P} {site : Site}
    {todo remaining : List Task}
    (h : dispatcherNext cfg d m = some (.replace x st .panicked site todo remaining, op)) :
    op = .tau ∧ ∃ q, (m.predState x).take = .panicked q := by
  cases dispatcherNext_step h with
  | getPanic hq => exact ⟨rfl, _, hq⟩

theorem callerNext_skips {e : CallerId} {c : CallerInput} {d : CallerPc V P} {st : TaskState P}
    {site : Site} {q : Pass}
    (h : callerNext cfg prog e c d m = some (.replace x st .panicked site q, op)) :
    op = .tau ∧ ∃ q, (m.predState x).take = .panicked q := by
  generalize hd : CallerPc.replace x st .panicked site q = d' at h
  cases callerNext_step h with
  | getPanic hq =>
      cases hd
      exact ⟨rfl, _, hq⟩
  | @wake _ k | @polled _ k => cases k <;> cases hd
  | _ => cases hd

/-- The thread has done nothing with the task yet. -/
def Stage.unfed : Stage V P → Bool
  | .fresh | .passed => true
  | _ => false

namespace Pool

variable {s s' : (pool cfg prog).State} {a : (pool cfg prog).Action}

/-- What the dispatcher knows of a predecessor when it skips a task for its panic. -/
theorem Reachable.pred_decided_of_dispatcher (h : Reachable s) {st : TaskState P} {site : Site}
    {todo remaining : List Task}
    (hd : Pool.dispatcher s = .replace x st .panicked site todo remaining)
    (hp : x.inner.predecessor = some p) : (s.mem.cell p).stage.decided = true := by
  refine h.thread_invariant (i := .dispatcher) (I := fun (d : DispatcherPc P) m =>
    ∀ x st site todo remaining p, d = .replace x st .panicked site todo remaining →
      x.inner.predecessor = some p → (m.cell p).stage.decided = true)
    (fun _ _ _ _ _ _ hd => by cases hd) ?_ ?_ x st site todo remaining p hd hp
  · rintro s c d o hr hn - x st site todo remaining p rfl hp
    obtain ⟨rfl, q, hq⟩ := dispatcherNext_skips hn
    exact (Reachable.inv hr).life.pred_decided hq hp
  · intro s s' a d hr _ hs hi x st site todo remaining p hd hp
    exact ((Reachable.grows hr hs).cell p).decided (hi x st site todo remaining p hd hp)

/-- What a caller knows of a predecessor when it skips a task for its panic. -/
theorem Reachable.pred_decided_of_caller (h : Reachable s) {e : CallerId} {st : TaskState P}
    {site : Site} {q : Pass} (hd : Pool.caller s e = .replace x st .panicked site q)
    (hp : x.inner.predecessor = some p) : (s.mem.cell p).stage.decided = true := by
  refine h.thread_invariant (i := .caller e) (I := fun (d : CallerPc V P) m =>
    ∀ x st site q p, d = .replace x st .panicked site q →
      x.inner.predecessor = some p → (m.cell p).stage.decided = true)
    (fun _ _ _ _ _ hd => by cases hd) ?_ ?_ x st site q p hd hp
  · rintro s c d o hr hn - x st site q p rfl hp
    obtain ⟨rfl, q, hq⟩ := callerNext_skips hn
    exact (Reachable.inv hr).life.pred_decided hq hp
  · intro s s' a d hr _ hs hi x st site q p hd hp
    exact ((Reachable.grows hr hs).cell p).decided (hi x st site q p hd hp)

/-- Without `cancel`, a task is skipped after its predecessor. -/
theorem Reachable.pred_decided_of_replace (h : Reachable s) (hc : ¬SomeCancel s.mem)
    {st : TaskState P} {f : Finish} (ho : Performs s a (.replace t st f))
    (hf : (s.mem.cell t).stage = .fresh) (hp : prog.pred t = some p) :
    (s.mem.cell p).stage.decided = true := by
  have hpre := h.performs ho
  have hpan : f = .panicked := by
    have hskip := hpre.2
    unfold Skips at hskip
    split at hskip
    · rfl
    · exact absurd hskip hc
    · exact hskip.elim
  subst hpan
  have hat : s.mem.At a.tid t .fresh := hpre.1.resolve_right fun ⟨r, hr⟩ => by
    simp [hr.2] at hf
  obtain ⟨q, hn⟩ := ho
  obtain ⟨i, c⟩ := a
  cases i with
  | dispatcher =>
      obtain ⟨x, site, todo, remaining, hd, rfl⟩ := dispatcherNext_replaces hn
      have hloc := h.dispatcher
      rw [show Pool.dispatcher s = _ from hd] at hloc
      have hb := hloc.tasks.head_built.inner
      exact h.pred_decided_of_dispatcher hd (hb ▸ hp)
  | worker w =>
      obtain ⟨x, rfl, hx⟩ := (h.worker w).tasks.exists_mem hat.1
      rw [hat.2] at hx
      exact absurd rfl (WorkerPc.stage_ne_fresh hx)
  | caller e =>
      have hloc := h.caller e
      rcases callerNext_replaces hn with ⟨x, site, q', hp', rfl, -⟩ | ⟨x, r, q', hp', rfl⟩
      · rw [show Pool.caller s e = _ from hp'] at hloc
        have hb := (hloc.tasks _ rfl).head_built.inner
        exact h.pred_decided_of_caller hp' (hb ▸ hp)
      · rw [show Pool.caller s e = _ from hp'] at hloc
        have hst := (hloc.tasks _ rfl).head_stage
        simp [hf, PollPc.stage] at hst

/-- Without `cancel`, a task that was taken in hand has a predecessor with an outcome, or
none. -/
theorem Reachable.pred_decided (h : Reachable s) (hc : ¬SomeCancel s.mem)
    (ht : (s.mem.cell t).stage.unfed = false) (hp : prog.pred t = some p) :
    (s.mem.cell p).stage.decided = true := by
  refine h.invariant (I := fun s => ¬SomeCancel s.mem → (s.mem.cell t).stage.unfed = false →
    (s.mem.cell p).stage.decided = true) (fun _ ht => by cases ht) ?_ hc ht
  intro s s' a hr hi hs _ hc ht
  have hr : Reachable s := hr
  have hgrows := hr.grows hs
  have hc : ¬SomeCancel s.mem := fun hc' => hc (hgrows.someCancel hc')
  obtain ⟨o, ho, hm⟩ := mem_of_step hs
  have hpre := hr.performs ho
  have old : (s.mem.cell t).stage.unfed = false → (s'.mem.cell p).stage.decided = true :=
    fun ht => (hgrows.cell p).decided (hi hc ht)
  have woken : (s.mem.cell p).wakes ≠ [] → (s'.mem.cell p).stage.decided = true := fun hw =>
    (hgrows.cell p).decided ((hr.inv.life.cell p).stage_decided hw)
  rcases (Op.cellStep o s.mem t).stage with hsame | hmove | ⟨w, x, rfl, rfl⟩ | ⟨home, site, rfl⟩
  · exact old (by rwa [← hsame, ← hm])
  · cases o
    case invoke u v =>
      obtain ⟨rfl, -⟩ : u = t ∧ _ := by simpa [Op.moveTo] using hmove
      rcases hpre.1 with ⟨hnone, -⟩ | ⟨p', v, hp', -, hres⟩
      · simp [hp] at hnone
      · obtain rfl := Option.some.inj (hp.symm.trans hp')
        exact woken ((hr.inv.life.cell p).resultOk hres).2
    case replace u st f =>
      obtain ⟨rfl, -⟩ : u = t ∧ _ := by simpa [Op.moveTo] using hmove
      rcases hpre.1 with hat | ⟨r, hat⟩
      · exact (hgrows.cell p).decided (hr.pred_decided_of_replace hc ho hat.2 hp)
      · exact old (by simp [hat.2, Stage.unfed])
    case waitSignal u k =>
      cases k <;> simp only [Op.moveTo, Option.some.injEq, Prod.mk.injEq, reduceCtorEq] at hmove
      obtain ⟨-, hpred⟩ := hpre.2.resolve_left (by simp)
      obtain rfl := Option.some.inj (hp.symm.trans (hmove.1 ▸ hpred))
      exact woken (hr.inv.life.wakes_of_ready hpre.1)
    case takeResult u k r =>
      cases k <;> simp only [Op.moveTo, Option.some.injEq, Prod.mk.injEq, reduceCtorEq] at hmove
      obtain rfl := Option.some.inj (hp.symm.trans (hmove.1 ▸ hpre.2.2.1.2))
      exact woken hpre.1
    case takeBuffer u k v =>
      cases k <;> simp only [Op.moveTo, Option.some.injEq, Prod.mk.injEq, reduceCtorEq] at hmove
      obtain rfl := Option.some.inj (hp.symm.trans (hmove.1 ▸ hpre.2.2.1.2))
      exact woken hpre.1
    all_goals
      simp only [Op.moveTo, Option.some.injEq, Prod.mk.injEq, reduceCtorEq] at hmove
    all_goals obtain ⟨rfl, hstage⟩ := hmove
    case pass => simp [hm, ← hstage, Stage.unfed] at ht
    -- the task was in hand before
    case bodyReturns =>
      obtain ⟨v, hat, -⟩ := hpre
      exact old (by simp [hat.2, Stage.unfed])
    case futurePanics =>
      obtain ⟨v, q, hat, -⟩ := hpre
      exact old (by simp [hat.2, Stage.unfed])
    case foundCancelled =>
      obtain ⟨-, ⟨v, hat⟩, -⟩ := hpre
      exact old (by simp [hat.2, Stage.unfed])
    case writeBuffer => exact old (by simp [hpre.2, Stage.unfed])
    case writeReady => exact old (by simp [hpre.2, Stage.unfed])
    case silent => exact hpre.elim
    case wakeSignal => exact old (by simp [hpre.1.2, Stage.unfed])
    case replacePanicked => exact old (by simp [hpre.2.2, Stage.unfed])
  · simp [hm, Op.exec, Stage.unfed] at ht
  · refine old ?_
    simp [hpre.1.2, Stage.unfed]

/-! ## The simulation -/

/-- The tasks that were submitted. -/
def submissions (s : (pool cfg prog).State) : Set TaskId := {t | (s.mem.cell t).owner ≠ .user}

/-- The state of the graph that a state of the pool stands for. -/
def dataflow (s : (pool cfg prog).State) : Dataflow.State TaskId (Option V) where
  submitted := submissions s
  outcome t := (s.mem.cell t).outcome

/-- Nobody cancels, and no task is skipped out of turn. -/
structure Plain (s : (pool cfg prog).State) (a : (pool cfg prog).Action) : Prop where
  cancel : cancels a = false
  turn : ¬OutOfTurn s a

/-- The runs of plain steps. -/
abbrev PlainRun (s : (pool cfg prog).State) : Prop :=
  System.ReachVia (fun s a _ => Plain s a) (poolInit cfg prog) s

theorem PlainRun.no_cancel (h : PlainRun s) : ¬SomeCancel s.mem :=
  h.invariant (I := fun s => ¬SomeCancel s.mem) noCancel_init
    fun _ _ hi hs ha => noCancel_step hi ha.cancel hs

theorem PlainRun.turned (h : PlainRun s) : Turned s :=
  h.invariant (I := Turned) (fun _ ht => absurd rfl ht)
    fun _ hr hi hs ha => hi.step hr.reach ha.turn hs

/-- With threads, all runs without `cancel` are plain. -/
theorem PlainRun.of_threads (hc : cfg.threadCount ≠ 0)
    (h : System.ReachVia (fun _ a _ => cancels a = false) (poolInit cfg prog) s) : PlainRun s := by
  induction h with
  | init => exact .init
  | step a hr hs ha ih => exact .step a ih hs ⟨ha, Reachable.not_outOfTurn hc hr.reach⟩

/-- An outcome is written by an operation on its task. -/
theorem Reachable.moveTo_of_decided (h : Reachable s) {o : Op V P} (ho : Performs s a o)
    (hno : (s.mem.cell t).stage.decided = false)
    (hd : ((o.exec s.mem).cell t).stage.decided = true) : ∃ st, o.moveTo = some (t, st) := by
  rcases (Op.cellStep o s.mem t).stage with hsame | hmove | ⟨w, x, rfl, rfl⟩ | ⟨home, site, rfl⟩
  · simp [hsame, hno] at hd
  · exact ⟨_, hmove⟩
  · simp [Op.exec, Stage.decided] at hd
  · simp [(h.performs ho).1.2, Stage.decided] at hno

end Pool

/-- An operation that moves a task on leaves the other tasks alone, and all tasks where they
are. -/
theorem Op.others {st : Stage V P} (hp : op.Pre prog i m) (hpl : Places prog m)
    (ho : op.moveTo = some (t, st)) :
    (∀ u ≠ t, ((op.exec m).cell u).stage = (m.cell u).stage) ∧
      (∀ u, ((op.exec m).cell u).owner = (m.cell u).owner) ∧ (op.exec m).sem = m.sem := by
  refine ⟨fun u hu => ?_, fun u => ?_, funext fun g => ?_⟩
  · rcases (Op.cellStep op m u).stage with hsame | hmove | ⟨w, x, rfl, rfl⟩ | ⟨home, site, rfl⟩
    · exact hsame
    · cases hmove.symm.trans ho
      exact absurd rfl hu
    · cases ho
    · cases ho
  · rcases Op.owner_cases hp hpl u with hsame | hcar
    · exact hsame
    · generalize (m.cell u).owner = o₁, ((op.exec m).cell u).owner = o₂ at hcar
      cases hcar <;> cases ho
  · have hsem : (op.exec m).sem g = m.sem g ∨ ∃ u, op = .signalSem u g := Op.sem_eq g
    rcases hsem with hsame | ⟨u, rfl⟩
    · exact hsame
    · cases ho

namespace Pool

variable {s s' : (pool cfg prog).State} {a : (pool cfg prog).Action}

/-- Where the same tasks are decided, the same outcomes are shown. -/
theorem Reachable.outcome_eq (h : Reachable s) (h' : Reachable s') (hc : ¬SomeCancel s.mem)
    (hc' : ¬SomeCancel s'.mem)
    (hd : (s'.mem.cell t).stage.decided = (s.mem.cell t).stage.decided) :
    (s'.mem.cell t).outcome = (s.mem.cell t).outcome := by
  cases hdec : (s.mem.cell t).stage.decided with
  | false =>
      rw [h.inv.life.outcome_eq_none hc hdec, h'.inv.life.outcome_eq_none hc' (hd.trans hdec)]
  | true =>
      obtain ⟨o, he, ho⟩ := h.inv.life.outcome_eq_some hc hdec
      obtain ⟨o', he', ho'⟩ := h'.inv.life.outcome_eq_some hc' (hd.trans hdec)
      rw [ho, ho', he.unique he']

/-- A task whose outcome is written by a step was enabled in the graph. -/
theorem PlainRun.enabled (h : PlainRun s) (ha : Plain s a) (hs : s.step a = some s')
    (hno : (s.mem.cell t).stage.decided = false) (hd : (s'.mem.cell t).stage.decided = true) :
    prog.graph.Enabled (dataflow s) t := by
  have hr : Reachable s := h.reach
  have h' : PlainRun s' := .step a h hs ha
  have hr' : Reachable s' := h'.reach
  obtain ⟨o, ho, hm⟩ := mem_of_step hs
  rw [hm] at hd
  obtain ⟨st, hmove⟩ := hr.moveTo_of_decided ho hno hd
  obtain ⟨hstage, howner, hsem⟩ := Op.others (hr.performs ho) hr.inv.places hmove
  rw [← hm] at hstage howner hsem hd
  have hunfed : (s'.mem.cell t).stage.unfed = false := by
    cases hst : (s'.mem.cell t).stage <;> simp [hst, Stage.decided, Stage.unfed] at hd ⊢
  refine ⟨?_, hr.inv.life.outcome_eq_none h.no_cancel hno, fun p hp => ?_, fun g hg => ?_⟩
  · show (s.mem.cell t).owner ≠ .user
    intro hu
    have hfresh := hr'.inv.places.user t ((howner t).trans hu)
    simp [hfresh, Stage.decided] at hd
  · have hdec := hr'.pred_decided h'.no_cancel hunfed hp
    rw [hstage p (Program.pred_lt hp).ne] at hdec
    obtain ⟨o', -, ho'⟩ := hr.inv.life.outcome_eq_some h.no_cancel hdec
    simp [dataflow, ho']
  · have hfresh : (s'.mem.cell t).stage ≠ .fresh := by
      intro hf
      simp [hf, Stage.decided] at hd
    have hg' := h'.turned t hfresh g hg
    rw [hsem] at hg'
    obtain ⟨u, hu, hdec⟩ := hr.signaller hg'
    obtain ⟨o', -, ho'⟩ := hr.inv.life.outcome_eq_some h.no_cancel hdec
    exact ⟨u, hu, by simp [dataflow, ho']⟩

/-- The value of an enabled task is what it evaluates to. -/
theorem PlainRun.eval_eq (h : PlainRun s) (he : prog.graph.Enabled (dataflow s) t)
    {o : Except (Payload P) V} (ho : prog.Evals t o) :
    prog.graph.eval t ((prog.pred t).bind (dataflow s).outcome) = o.toOption := by
  cases hp : prog.pred t with
  | none => exact ho.eval_root hp
  | some p =>
      have hl := (Reachable.inv h.reach).life
      have hdec := hl.decided_of_outcome h.no_cancel (he.pred p hp)
      obtain ⟨o', he', ho'⟩ := hl.outcome_eq_some h.no_cancel hdec
      have hout : (dataflow s).outcome p = some o'.toOption := ho'
      rw [Option.bind_some, hout]
      exact ho.eval_next hp he'

/-- What was submitted stays so. -/
theorem Reachable.submissions_subset (h : Reachable s) (hs : s.step a = some s') :
    submissions s ⊆ submissions s' := by
  intro t ht hu
  obtain ⟨o, ho, hm⟩ := mem_of_step hs
  rw [hm] at hu
  rcases Op.owner_cases (h.performs ho) h.inv.places t with hsame | hcar
  · exact ht (hsame.symm.trans hu)
  · rw [hu] at hcar
    generalize (s.mem.cell t).owner = o₁ at hcar
    cases hcar

/-- A task fires when its outcome is written. -/
theorem PlainRun.fires (h : PlainRun s) (ha : Plain s a) (hs : s.step a = some s')
    (hno : (s.mem.cell t).stage.decided = false) (hd : (s'.mem.cell t).stage.decided = true) :
    dataflow s' = prog.graph.fire (dataflow s) t := by
  have hr : Reachable s := h.reach
  have h' : PlainRun s' := .step a h hs ha
  have hr' : Reachable s' := h'.reach
  obtain ⟨q, hq, hout⟩ := hr'.inv.life.outcome_eq_some h'.no_cancel hd
  have heval : prog.graph.eval t ((prog.graph.pred t).bind (dataflow s).outcome) = q.toOption :=
    h.eval_eq (h.enabled ha hs hno hd) hq
  obtain ⟨o, ho, hm⟩ := mem_of_step hs
  rw [hm] at hd
  obtain ⟨st, hmove⟩ := hr.moveTo_of_decided ho hno hd
  obtain ⟨hstage, howner, -⟩ := Op.others (hr.performs ho) hr.inv.places hmove
  rw [← hm] at hstage howner
  refine Dataflow.State.ext ?_ ?_
  · ext u
    simp [dataflow, submissions, Dataflow.Graph.fire, howner u]
  · funext u
    simp only [Dataflow.Graph.fire, heval]
    by_cases hu : u = t
    · subst hu
      rw [Function.update_self]
      exact hout
    · rw [Function.update_of_ne hu]
      exact hr.outcome_eq hr' h.no_cancel h'.no_cancel (by rw [hstage u hu])

/-- A step of the pool is a step of the graph: a task fires, or tasks are submitted. -/
theorem PlainRun.steps (h : PlainRun s) (ha : Plain s a) (hs : s.step a = some s') :
    prog.graph.Step (dataflow s) (dataflow s') := by
  have hr : Reachable s := h.reach
  have h' : PlainRun s' := .step a h hs ha
  by_cases hnew : ∃ t, (s.mem.cell t).stage.decided = false ∧ (s'.mem.cell t).stage.decided = true
  · obtain ⟨t, hno, hd⟩ := hnew
    exact h.fires ha hs hno hd ▸ .fire (h.enabled ha hs hno hd)
  · suffices hsubmit : dataflow s' = { dataflow s with
        submitted := (dataflow s).submitted ∪ submissions s' } from hsubmit ▸ .submit _ _
    refine Dataflow.State.ext ?_ (funext fun t => ?_)
    · exact (Set.union_eq_self_of_subset_left (hr.submissions_subset hs)).symm
    · refine hr.outcome_eq h'.reach h.no_cancel h'.no_cancel ?_
      cases hd : (s.mem.cell t).stage.decided with
      | true => exact ((hr.grows hs).cell t).decided hd
      | false =>
          by_contra hd'
          exact hnew ⟨t, hd, by simpa using hd'⟩

theorem dataflow_init : dataflow (poolInit cfg prog) = .init := by
  refine Dataflow.State.ext ?_ rfl
  ext t
  simp [dataflow, submissions, Dataflow.State.init, poolInit, Shared.init, Cell.init]

theorem PlainRun.graph_reach (h : PlainRun s) : prog.graph.Reach (dataflow s) := by
  induction h with
  | init =>
      rw [dataflow_init]
  | step a hr hs ha ih => exact ih.tail (PlainRun.steps hr ha hs)

/-- The pool is simulated by the graph of its program.  It begins where nothing is submitted,
and every step is a step of the graph: a task whose dependencies have values fires, or tasks
are submitted and all outcomes stay. -/
theorem simulates :
    dataflow (poolInit cfg prog) = .init ∧
      ∀ (s s' : (pool cfg prog).State) (a : (pool cfg prog).Action), PlainRun s → Plain s a →
        s.step a = some s' → prog.graph.Step (dataflow s) (dataflow s') :=
  ⟨dataflow_init, fun _ _ _ h ha hs => h.steps ha hs⟩

/-- Pools that run the same program agree, whatever their threads and schedules: a task that
has an outcome in both has the same in both.  When the same tasks were submitted and no task
can fire in either, they have come to the same state of the graph. -/
theorem confluent {cfg' : Specs} {s' : (pool cfg' prog).State} (h : PlainRun s)
    (h' : PlainRun s') :
    (∀ t a b, (s.mem.cell t).outcome = some a → (s'.mem.cell t).outcome = some b → a = b) ∧
      (submissions s = submissions s' → prog.graph.Final (dataflow s) →
        prog.graph.Final (dataflow s') → dataflow s = dataflow s') :=
  ⟨fun _ _ _ ha hb => h.graph_reach.outcome_unique h'.graph_reach ha hb,
    fun hs hf hf' => h.graph_reach.final_unique h'.graph_reach hf hf' hs⟩

end Pool

/-! ## Schedules -/

/-- The tasks that a call takes from the user. -/
def Op.begins : Op V P → List TaskId
  | .beginSubmit _ ts | .beginRun _ ts => ts
  | _ => []

theorem Op.Carries.begins {o : Owner} (h : op.Carries t .user o) : t ∈ op.begins := by
  cases h with
  | beginSubmit _ _ ht | beginRun _ _ ht => exact ht

theorem Op.begins_of_ofCaller (h : op.ofCaller = false) : op.begins = [] := by
  cases op <;> first | rfl | cases h

theorem callerNext_begins {e : CallerId} {c : CallerInput} {d d' : CallerPc V P}
    (h : callerNext cfg prog e c d m = some (d', op)) (ht : t ∈ op.begins) :
    d = .idle ∧ ∃ all f ts, c.submits = some (all, f, ts) ∧ t ∈ ts := by
  have future : op.ofFuture = true → t ∉ op.begins := fun ho => by
    simp [Op.begins_of_ofCaller (Op.ofCaller_of_ofFuture ho)]
  cases callerNext_step h with
  | inline hc | submit hc => exact ⟨rfl, _, _, _, hc, ht⟩
  | more hp | pending hp | err hp | ready hp => exact absurd ht (future (pollNext_ofFuture hp))
  | settle hs | settled hs => exact absurd ht (future (settleNext_ofFuture hs))
  | _ => cases ht

namespace Pool

variable {s s' : (pool cfg prog).State} {a : (pool cfg prog).Action}

/-- The tasks of a submit call. -/
def names : (pool cfg prog).Action → List TaskId
  | ⟨.caller _, c⟩ => (CallerInput.submits c).elim [] (·.2.2)
  | _ => []

/-- A task is submitted by a call that names it. -/
theorem Reachable.submissions_of_step (h : Reachable s) (hs : s.step a = some s')
    (ht : t ∈ submissions s') : t ∈ submissions s ∨ t ∈ names a := by
  by_contra hn
  rw [not_or] at hn
  obtain ⟨hu, hn⟩ := hn
  have hu : (s.mem.cell t).owner = .user := not_not.mp hu
  obtain ⟨o, ⟨q, hq⟩, hm⟩ := mem_of_step hs
  have hbegins : t ∈ o.begins := by
    rcases Op.owner_cases (h.performs ⟨q, hq⟩) h.inv.places t with hsame | hcar
    · exact absurd (by rw [hm, hsame, hu]) ht
    · rw [hu] at hcar
      exact hcar.begins
  obtain ⟨i, c⟩ := a
  cases i with
  | dispatcher =>
      simp [Op.begins_of_ofCaller (dispatcherNext_ofCaller hq)] at hbegins
  | worker w =>
      simp [Op.begins_of_ofCaller (workerNext_ofCaller hq)] at hbegins
  | caller e =>
      obtain ⟨-, all, f, ts, hc, hts⟩ := callerNext_begins hq hbegins
      exact hn (by simpa [names, hc] using hts)

/-- What a schedule submits is named in it. -/
theorem submissions_after (as : List (pool cfg prog).Action) (h : Reachable s) :
    submissions (s.after as) ⊆ submissions s ∪ {t | t ∈ as.flatMap names} := by
  induction as generalizing s with
  | nil => exact Set.subset_union_left
  | cons a as ih =>
      intro t ht
      rw [System.State.after_cons] at ht
      rw [List.flatMap_cons]
      cases hs : s.step a with
      | none =>
          rw [hs] at ht
          exact (ih h ht).imp_right fun hn => List.mem_append_right _ hn
      | some s' =>
          rw [hs] at ht
          rcases ih (.step a h hs trivial) ht with ht | hn
          · exact (h.submissions_of_step hs ht).imp_right fun hn => List.mem_append_left _ hn
          · exact .inr (List.mem_append_right _ hn)

/-- The tasks that a schedule has submitted are those that it names. -/
theorem submissions_eq {as : List (pool cfg prog).Action} {ts : List TaskId}
    (hts : as.flatMap names = ts)
    (h : ∀ t ∈ ts, (((poolInit cfg prog).after as).mem.cell t).owner ≠ .user) :
    submissions ((poolInit cfg prog).after as) = {t | t ∈ ts} := by
  subst hts
  refine Set.Subset.antisymm (fun t ht => ?_) h
  exact (submissions_after as .init ht).resolve_left fun hu => hu rfl

/-- No task can fire when all that the schedule names have an outcome. -/
theorem final_after {as : List (pool cfg prog).Action} {ts : List TaskId}
    (hts : as.flatMap names = ts)
    (h : ∀ t ∈ ts, (((poolInit cfg prog).after as).mem.cell t).outcome ≠ none) :
    prog.graph.Final (dataflow ((poolInit cfg prog).after as)) := by
  subst hts
  intro t he
  exact h t ((submissions_after as .init he.submitted).resolve_left fun hu => hu rfl) he.waiting

/-- No `cancel`, and no task is skipped out of turn. -/
def plainly (s : (pool cfg prog).State) (a : (pool cfg prog).Action) : Bool :=
  !cancels a &&
    match s.next a with
    | some (_, o) => o.inTurn prog s.mem
    | none => true

theorem plain_of_plainly (h : plainly s a = true) : Plain s a := by
  obtain ⟨hc, ht⟩ := Bool.and_eq_true_iff.mp h
  exact ⟨by simpa using hc, not_outOfTurn_of_op ht⟩

end Pool

/-! ## One program in two pools -/

set_option maxRecDepth 2000

/-- The chain of two functions, run inline for `n` steps. -/
def successorInline (n : Nat) : (pool Specs.inline successorChain).State :=
  (poolInit _ _).after (call 0 (.submitAll [1, 0]) :: List.replicate n (call 0 .proceed))

theorem successorInline_plain (n : Nat) (h : (poolInit Specs.inline successorChain).along plainly
    (call 0 (.submitAll [1, 0]) :: List.replicate n (call 0 .proceed)) = true) :
    PlainRun (successorInline n) :=
  .along .init (fun _ _ _ _ => plain_of_plainly) _ h

theorem successorRun_plain : PlainRun successorRun :=
  .along .init (fun _ _ _ _ => plain_of_plainly) _ (by decide)

/-- The first function fires when its state is written. -/
theorem Pool.simulates_successorInline :
    successorChain.graph.Step (dataflow (successorInline 14)) (dataflow (successorInline 15)) :=
  simulates.2 _ _ (call 0 .proceed) (successorInline_plain 14 (by decide))
    (plain_of_plainly (by decide)) rfl

theorem successorInline_names : (call 0 (.submitAll [1, 0]) :: List.replicate 32 (call 0 .proceed) :
    List (pool Specs.inline successorChain).Action).flatMap names = [1, 0] := by decide

theorem successorRun_names :
    (submits 0 [0, 1] ++ turns 40 : List (pool Specs.one successorChain).Action).flatMap names =
      [0, 1] := by decide

theorem successorInline_submissions : submissions (successorInline 32) = {t | t ∈ [1, 0]} :=
  submissions_eq successorInline_names (by decide)

theorem successorRun_submissions : submissions successorRun = {t | t ∈ [0, 1]} :=
  submissions_eq successorRun_names (by decide)

/-- The chain comes to the same end inline and on a thread. -/
theorem Pool.confluent_successorRun : dataflow (successorInline 32) = dataflow successorRun := by
  refine (confluent (successorInline_plain 32 (by decide)) successorRun_plain).2 ?_
    (final_after successorInline_names (by decide)) (final_after successorRun_names (by decide))
  rw [successorInline_submissions, successorRun_submissions]
  ext t
  simp [or_comm]

example : (successorRun.mem.cell 1).outcome = some (some 6) := by decide

end MVSync
