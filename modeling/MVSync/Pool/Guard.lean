import MVSync.Pool.Life

/-!
# When a thread performs an operation

`Op.Pre prog i o m` is what holds of the memory when thread `i` performs `o`.
It says that the thread has the task that the operation is about, how far the
thread has come with it, and what it has read on the way.  That every step of
the pool satisfies it is shown later, thread by thread.  Here every operation
that satisfies it is shown to keep the table of stages and the links.
-/

namespace MVSync

variable {V P : Type}

/-! ## Preconditions -/

/-- Thread `i` has the task `t`, at stage `st`. -/
def Shared.At (m : Shared V P) (i : Tid) (t : TaskId) (st : Stage V P) : Prop :=
  (m.cell t).owner = .thread i ∧ (m.cell t).stage = st

/-- Thread `i` is not settling a task. -/
def Shared.NotSettling (m : Shared V P) (i : Tid) : Prop :=
  ∀ t, (m.cell t).owner = .thread i → (m.cell t).stage.settling = false

section

variable (prog : Program V P)

/-- The predecessor of `t`, if it has one, returned or panicked, and that is
written. -/
def PredFinished (m : Shared V P) (t : TaskId) : Prop :=
  ∀ p, prog.pred t = some p → (m.cell p).stage.decided = true ∧
    ((m.cell p).finish = some .returned ∨ (m.cell p).finish = some .panicked)

/-- `st` is what a thread writes to the state of `t` when it does not run its
body: the predecessor panicked, or there was a `cancel`. -/
def Skips (m : Shared V P) (t : TaskId) : TaskState P → Finish → Prop
  | .panicked q, .panicked =>
      q = .unit ∧ ∃ p, prog.pred t = some p ∧ (m.cell p).finish = some .panicked
  | .cancelled, .cancelled => SomeCancel m
  | _, _ => False

/-- Thread `i` is entitled to the result of `t`: it runs the continuation of
`t`, which is at stage `st`, or the handle of `t` was moved to it. -/
def Entitled (m : Shared V P) (i : Tid) (t : TaskId) (st : Stage V P) : Taker → Prop
  | .continuation c => m.At i c st ∧ prog.pred c = some t
  | .handle => prog.succ t = none ∧ ∃ e, i = .caller e ∧ (m.cell t).handle = some e
  | .observer => False

/-- What holds of the memory when thread `i` performs an operation. -/
def Op.Pre (i : Tid) : Op V P → Shared V P → Prop
  | .tau, _ => True
  | .invoke t v, m =>
      Input prog m t v ∧ ∃ st, m.At i t st ∧ (st = .passed ∨ ∃ r, st = .tookResult r)
  | .bodyReturns t r, m => ∃ v, m.At i t (.running v) ∧ prog.body t v = .ok r
  | .futurePanics t, m => ∃ v q, m.At i t (.running v) ∧ prog.body t v = .error q
  | .writeBuffer t r, m => m.At i t (.returned r)
  | .writeReady t, m => m.At i t .written
  | .replace t st f, m =>
      (m.At i t .fresh ∨ ∃ r, m.At i t (.tookResult r)) ∧ Skips prog m t st f
  | .silent _, _ => False
  | .waitSignal t k, m =>
      (m.cell t).signal.ready = true ∧ (k = .observer ∨ Entitled prog m i t .passed k)
  | .takeResult t k r, m =>
      (m.cell t).wakes ≠ [] ∧ (m.cell t).result = none ∧ Entitled prog m i t .tookFlag k ∧
        ((m.cell t).finish = some .panicked ∧ r = .panicked .unit ∨
          (m.cell t).state = .cancelled ∧ r = .cancelled)
  | .takeBuffer t k v, m =>
      (m.cell t).wakes ≠ [] ∧ (m.cell t).result = none ∧ Entitled prog m i t .tookFlag k ∧
        (m.cell t).finish = some .returned ∧ (m.cell t).buffer = some v
  | .pollSignal _ _ _, _ => True
  | .moveHandle t e, m => i = .caller e ∧ prog.succ t = none ∧ (m.cell t).handle = none
  | .cancel _, _ => True
  | .signalSem t s, m => m.At i t .finished ∧ s ∈ prog.semaphores t
  | .wakeSignal t _, m => m.At i t .finished ∧ ∀ s ∈ prog.semaphores t, m.sem s = true
  | .wakeQueue t home site, m => m.At i t (.woken site) ∧ home = prog.home t
  | .recv, m => i = .dispatcher ∧ m.channel ≠ []
  | .sendWorker _ x, m =>
      i = .dispatcher ∧ m.At i x.id .fresh ∧ prog.Built x ∧ Waited prog m x.id ∧
        PredFinished prog m x.id
  | .fetchSub _, _ => i = .dispatcher
  | .waitQueueSignal, _ => i = .dispatcher
  | .exitDispatcher, _ => i = .dispatcher
  | .dropDispatcher, m => i = .dispatcher ∧ m.NotSettling i
  | .recvWorker w, m => i = .worker w ∧ m.workerChannel w ≠ []
  | .fetchAdd w, _ => i = .worker w
  | .replacePanicked t _ w, m => i = .worker w ∧ m.At i t .panicking
  | .foundCancelled t w, m =>
      i = .worker w ∧ (∃ v, m.At i t (.running v)) ∧ (m.cell t).state = .cancelled
  | .waitWorkerSignal w, _ => i = .worker w
  | .wakeWorker _, _ => True
  | .beginSubmit e ts, m => i = .caller e ∧ ts.Nodup ∧ ∀ t ∈ ts, (m.cell t).owner = .user
  | .send x, m => (∃ e, i = .caller e) ∧ m.At i x.id .fresh ∧ prog.Built x
  | .endSubmit, _ => ∃ e, i = .caller e
  | .failSubmit e, m => i = .caller e ∧ m.NotSettling i
  | .dropQueue, _ => True
  | .beginRun e ts, m => i = .caller e ∧ ts.Nodup ∧ ∀ t ∈ ts, (m.cell t).owner = .user
  | .pass t, m => m.At i t .fresh ∧ Waited prog m t
  | .dropTask t, m => (∃ e, i = .caller e) ∧ m.At i t .fresh
  | .dropCaller e, m => i = .caller e ∧ m.NotSettling i
  | .newCallerSignal e, _ => i = .caller e
  | .waitCallerSignal e, _ => i = .caller e
  | .wakeCaller _, _ => True

end

variable {prog : Program V P} {m m' : Shared V P} {i : Tid} {t c : TaskId}

/-- The stage that an operation moves a task to. -/
def Op.moveTo : Op V P → Option (TaskId × Stage V P)
  | .invoke t v => some (t, .running v)
  | .bodyReturns t r => some (t, .returned r)
  | .futurePanics t => some (t, .panicking)
  | .writeBuffer t _ => some (t, .written)
  | .writeReady t | .replace t _ _ | .silent t => some (t, .finished)
  | .waitSignal _ (.continuation c) => some (c, .tookFlag)
  | .takeResult _ (.continuation c) r => some (c, .tookResult r)
  | .takeBuffer _ (.continuation c) v => some (c, .tookResult (.returned v))
  | .wakeSignal t site => some (t, .woken site)
  | .replacePanicked t _ _ | .foundCancelled t _ => some (t, .finished)
  | .pass t => some (t, .passed)
  | _ => none

/-- An operation only moves a task on that its thread has. -/
theorem Op.Pre.at_of_moveTo {op : Op V P} {st : Stage V P} (hp : op.Pre prog i m)
    (hop : op.moveTo = some (t, st)) : ∃ st', m.At i t st' := by
  cases op
  case waitSignal u k =>
    cases k <;> simp only [Op.moveTo, Option.some.injEq, Prod.mk.injEq, reduceCtorEq] at hop
    exact ⟨_, hop.1 ▸ (hp.2.resolve_left nofun).1⟩
  case takeResult u k r =>
    cases k <;> simp only [Op.moveTo, Option.some.injEq, Prod.mk.injEq, reduceCtorEq] at hop
    exact ⟨_, hop.1 ▸ hp.2.2.1.1⟩
  case takeBuffer u k v =>
    cases k <;> simp only [Op.moveTo, Option.some.injEq, Prod.mk.injEq, reduceCtorEq] at hop
    exact ⟨_, hop.1 ▸ hp.2.2.1.1⟩
  all_goals
    simp only [Op.moveTo, Option.some.injEq, Prod.mk.injEq, reduceCtorEq] at hop
  all_goals obtain ⟨rfl, -⟩ := hop
  case invoke => exact ⟨_, hp.2.choose_spec.1⟩
  case bodyReturns => exact ⟨_, hp.choose_spec.1⟩
  case futurePanics => exact ⟨_, hp.choose_spec.choose_spec.1⟩
  case replace =>
    rcases hp.1 with ha | ⟨r, ha⟩
    · exact ⟨_, ha⟩
    · exact ⟨_, ha⟩
  case silent => exact hp.elim
  case replacePanicked => exact ⟨_, hp.2⟩
  case foundCancelled => exact ⟨_, hp.2.1.choose_spec⟩
  case writeBuffer => exact ⟨_, hp⟩
  case writeReady => exact ⟨_, hp⟩
  case wakeSignal => exact ⟨_, hp.1⟩
  case pass => exact ⟨_, hp.1⟩

/-! ## Operations that move values

They change where a value is, and the wakers of a signal. -/

/-- `c'` is `c` up to where its values are. -/
def Cell.Moved (c c' : Cell V P) : Prop :=
  ∃ o hd g, (∀ e, c.handle = some e → hd = some e) ∧ g.ready = c.signal.ready ∧
    c' = { c with owner := o, handle := hd, signal := g }

/-- `m'` is `m` up to where the values of the tasks are. -/
def Shared.Moved (m m' : Shared V P) : Prop :=
  (∀ t, (m.cell t).Moved (m'.cell t)) ∧ m'.sem = m.sem

theorem Cell.Moved.refl (c : Cell V P) : c.Moved c :=
  ⟨c.owner, c.handle, c.signal, fun _ => id, rfl, rfl⟩

theorem Cell.Moved.owner (c : Cell V P) (o : Owner) : c.Moved { c with owner := o } :=
  ⟨o, c.handle, c.signal, fun _ => id, rfl, rfl⟩

theorem Shared.Moved.refl (m : Shared V P) : m.Moved m := ⟨fun _ => .refl _, rfl⟩

theorem Shared.Moved.modify {f : Cell V P → Cell V P} (h : (m.cell t).Moved (f (m.cell t))) :
    m.Moved (m.modify t f) := by
  refine ⟨fun u => ?_, rfl⟩
  by_cases hu : u = t
  · subst hu
    rw [Shared.modify_cell_self]
    exact h
  · rw [Shared.modify_cell_of_ne _ _ hu]
    exact .refl _

theorem Shared.Moved.move (m : Shared V P) (ts : List TaskId) (o : Owner) :
    m.Moved (m.move ts o) := by
  refine ⟨fun t => ?_, rfl⟩
  simp only [Shared.move]
  split
  · exact .owner _ _
  · exact .refl _

theorem Shared.Moved.drop (m : Shared V P) (o : Owner) : m.Moved (m.drop o) := by
  refine ⟨fun t => ?_, rfl⟩
  simp only [Shared.drop]
  split
  · exact .owner _ _
  · exact .refl _

theorem Cell.Moved.trans {a b d : Cell V P} (h : a.Moved b) (h' : b.Moved d) : a.Moved d := by
  obtain ⟨o, hd, g, hh, hg, rfl⟩ := h
  obtain ⟨o', hd', g', hh', hg', rfl⟩ := h'
  exact ⟨o', hd', g', fun e he => hh' e (hh e he), hg'.trans hg, rfl⟩

theorem Shared.Moved.trans {m'' : Shared V P} (h : m.Moved m') (h' : m'.Moved m'') :
    m.Moved m'' :=
  ⟨fun t => (h.1 t).trans (h'.1 t), h'.2.trans h.2⟩

theorem CellOk.moved {c c' : Cell V P} (h : CellOk prog t c) (hm : c.Moved c') :
    CellOk prog t c' := by
  obtain ⟨o, hd, g, -, hg, rfl⟩ := hm
  simpa only [CellOk, Cell.open_iff, Cell.unwoken_iff, Cell.woken_iff, Cell.Decided, Cell.Flagged,
    Cell.ResultOk, hg] using h

theorem Life.moved (h : Life prog m) (hm : m.Moved m') : Life prog m' := by
  obtain ⟨hc, hs⟩ := hm
  have hcancel : SomeCancel m → SomeCancel m' := by
    rintro ⟨u, hu⟩
    obtain ⟨o, hd, g, -, -, he⟩ := hc u
    exact ⟨u, by rw [he]; exact hu⟩
  refine ⟨fun t => (h.cell t).moved (hc t), fun t ht => ?_, fun t v hv => ?_, fun t ht => ?_,
    fun t ht => ?_, fun s hs' => ?_⟩
  · obtain ⟨o, hd, g, -, -, he⟩ := hc t
    rw [he] at ht
    simpa only [Waited, hs] using h.waited t ht
  · obtain ⟨o, hd, g, -, -, he⟩ := hc t
    rw [he] at hv ⊢
    obtain ⟨h₁, h₂, h₃⟩ := h.invoked t v hv
    refine ⟨h₁, by simpa only [Waited, hs] using h₂, h₃.mono fun p r hr => ?_⟩
    obtain ⟨o, hd, g, -, -, he⟩ := hc p
    rw [he]
    exact hr
  · obtain ⟨o, hd, g, -, -, he⟩ := hc t
    rw [he] at ht
    simpa only [hs] using h.signalled t ht
  · obtain ⟨o, hd, g, -, -, he⟩ := hc t
    rw [he] at ht
    exact hcancel (h.cancelled t ht)
  · rw [hs] at hs'
    obtain ⟨t, ht, hf⟩ := h.sem s hs'
    obtain ⟨o, hd, g, -, -, he⟩ := hc t
    exact ⟨t, ht, by rw [he]; exact hf⟩

theorem Linked.moved (h : Linked prog m) (hm : m.Moved m') : Linked prog m' := by
  intro t p hp
  obtain ⟨o, hd, g, -, -, he⟩ := hm.1 t
  obtain ⟨o', hd', g', -, -, he'⟩ := hm.1 p
  rw [he, he']
  exact h t p hp

end MVSync
