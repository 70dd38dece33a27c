import MVSync.Pool.Places
import MVSync.Pool.System

/-!
# The proof outline of the pool

What every thread knows at each of its positions: which tasks it has and at
which stages, and what it has read that can no longer change.  `outline` puts
this together with the invariants of the memory, and `Pool.Reachable.holds` says
that it is true in every reachable state.
-/

namespace MVSync

open Concurrency

variable {V P : Type} {prog : Program V P} {m m' : Shared V P} {i j : Tid} {t : TaskId}
  {o : Owner} {x : Task} {st st' : Stage V P} {l l' : List (Task × Stage V P)}

/-! ## What a thread sees of the others -/

/-- What thread `j` sees of a step of another thread. -/
structure Rely (prog : Program V P) (j : Tid) (m m' : Shared V P) : Prop where
  /-- Its tasks are left alone. -/
  frame : Frame (.thread j) m m'
  grows : m.Grows m'
  /-- A result whose handle it has is left to it. -/
  result : ∀ e t, j = .caller e → prog.succ t = none → (m.cell t).handle = some e →
    (m'.cell t).result = (m.cell t).result

/-- The invariant of the memory. -/
structure Inv (prog : Program V P) (m : Shared V P) : Prop where
  life : Life prog m
  linked : Linked prog m
  places : Places prog m

theorem Inv.exec (h : Inv prog m) {op : Op V P} (hp : op.Pre prog i m) : Inv prog (op.exec m) :=
  ⟨h.life.exec hp, h.linked.exec h.life hp, h.places.exec h.life hp⟩

theorem Inv.rely (h : Inv prog m) {op : Op V P} (hp : op.Pre prog i m) (hj : j ≠ i) :
    Rely prog j m (op.exec m) where
  frame := by
    refine Op.frame hp h.places fun ht => hj ?_
    cases op <;> simpa [Op.touches] using ht
  grows := Op.grows h.life hp
  result e t hje hs hh := by
    refine Op.result_eq hp hs fun e' he' hi => hj ?_
    rw [hh] at he'
    rw [hje, hi, Option.some.inj he']

/-! ## Operations and the tasks of a thread -/

/-- The operations that leave every task where it is, at its stage. -/
def Op.still : Op V P → Bool
  | .tau | .pollSignal _ _ _ | .moveHandle _ _ | .cancel _ | .signalSem _ _ | .fetchSub _
  | .waitQueueSignal | .exitDispatcher | .fetchAdd _ | .waitWorkerSignal _ | .wakeWorker _
  | .endSubmit | .dropQueue | .newCallerSignal _ | .waitCallerSignal _ | .wakeCaller _
  | .waitSignal _ .handle | .waitSignal _ .observer
  | .takeResult _ .handle _ | .takeBuffer _ .handle _ => true
  | _ => false

theorem Op.still_frame {op : Op V P} (h : op.still = true) (o : Owner) (m : Shared V P) :
    Frame o m (op.exec m) := by
  cases op
  case waitSignal t k =>
    cases k <;> simp only [Op.still, Bool.false_eq_true] at h <;>
      simp only [Op.exec, Taker.advance] <;> exact .keep rfl rfl
  case takeResult t k r =>
    cases k <;> simp only [Op.still, Bool.false_eq_true] at h
    simp only [Op.exec, Taker.advance]
    exact .keep rfl rfl
  case takeBuffer t k v =>
    cases k <;> simp only [Op.still, Bool.false_eq_true] at h
    simp only [Op.exec, Taker.advance]
    exact .keep rfl rfl
  all_goals simp only [Op.still, Bool.false_eq_true] at h
  all_goals simp only [Op.exec]
  case pollSignal => exact .keep rfl rfl
  case moveHandle => exact .keep rfl rfl
  case cancel => exact .keep rfl rfl
  all_goals exact .refl _ _

namespace Shared.Has

/-- The place of a task that an operation moves to another stage. -/
theorem stageOf (h : m.Has prog o ((x, st) :: l)) {op : Op V P}
    (hop : op.moveTo = some (x.id, st')) : (op.exec m).Has prog o ((x, st') :: l) := by
  have take : ∀ {t : TaskId} {f : Cell V P → Cell V P} {s : Stage V P},
      (f (m.cell t)).owner = (m.cell t).owner → (f (m.cell t)).stage = (m.cell t).stage →
      s = st' →
        ((Taker.continuation x.id).advance s (m.modify t f)).Has prog o ((x, st') :: l) := by
    intro t f s ho hs he
    simp only [Taker.advance]
    exact (h.frame (.keep ho hs)).setStage rfl he
  cases op
  case waitSignal t k =>
    cases k <;> simp only [Op.moveTo, Option.some.injEq, Prod.mk.injEq, reduceCtorEq] at hop
    obtain ⟨rfl, hs⟩ := hop
    exact take rfl rfl hs
  case takeResult t k r =>
    cases k <;> simp only [Op.moveTo, Option.some.injEq, Prod.mk.injEq, reduceCtorEq] at hop
    obtain ⟨rfl, hs⟩ := hop
    exact take rfl rfl hs
  case takeBuffer t k v =>
    cases k <;> simp only [Op.moveTo, Option.some.injEq, Prod.mk.injEq, reduceCtorEq] at hop
    obtain ⟨rfl, hs⟩ := hop
    exact take rfl rfl hs
  all_goals
    simp only [Op.moveTo, Option.some.injEq, Prod.mk.injEq, reduceCtorEq] at hop
  all_goals
    obtain ⟨rfl, rfl⟩ := hop
    simp only [Op.exec]
  case replacePanicked q w =>
    have hs : (m.modify x.id fun c => { c with state := .panicked q, stage := .finished }).Has
        prog o ((x, .finished) :: l) := h.setStage rfl rfl
    exact ⟨hs.holds, hs.built⟩
  case foundCancelled w =>
    have hs : (m.modify x.id fun c =>
        { c with finish := some .cancelled, stage := .finished }).Has
        prog o ((x, .finished) :: l) := h.setStage rfl rfl
    exact ⟨hs.holds, hs.built⟩
  all_goals exact h.setStage rfl rfl

theorem still (h : m.Has prog o l) {op : Op V P} (hop : op.still = true) :
    (op.exec m).Has prog o l := h.frame (Op.still_frame hop o m)

end Shared.Has

/-! ## Polling -/

/-- What the thread that polls `x` knows at a position of the poll. -/
def PollPc.Knows (prog : Program V P) (x : Task) (m : Shared V P) : PollPc V P → Prop
  | .waitSignal p | .takeState p | .readState p _ => prog.pred x.id = some p
  | .takeBuffer p => prog.pred x.id = some p ∧ (m.cell p).finish = some .returned
  | .replace _ st f => Skips prog m x.id st f
  | _ => True

/-- What the thread that polls `x` knows after a step of the poll. -/
def PollResult.Knows (prog : Program V P) (x : Task) (m : Shared V P) : PollResult V P → Prop
  | .more p => p.Knows prog x m
  | _ => True

/-- The state of a woken task is decided. -/
theorem Cell.Woken.state_ne_pending {c : Cell V P} (h : c.Woken prog t) : c.state ≠ .pending :=
  h.decided.elim fun _ hf => hf.2.state_ne_pending

/-- The result that a wait got agrees with what the state is read as later: a
returned task may be cancelled since, and nothing else can change. -/
theorem Cell.Woken.result_of_ready {c : Cell V P} (h : c.Woken prog t) (hs : c.state = .ready)
    {r : TaskResult V P} (hr : c.result = some r) : ∃ v, r = .returned v := by
  have hok := h.result r hr
  obtain ⟨f, hf, hd⟩ := h.decided
  cases r with
  | returned v => exact ⟨v, rfl⟩
  | panicked q =>
      obtain rfl := Option.some.inj (hf.symm.trans hok.2)
      simp [Cell.Decided, hs] at hd
  | cancelled => simp [Cell.ResultOk, hs] at hok

/-- The buffer of a task that returned is full until a wait takes it. -/
theorem Cell.Woken.buffer_ne_none {c : Cell V P} (h : c.Woken prog t)
    (hf : c.finish = some .returned) (hr : c.result = none) : c.buffer ≠ none := by
  obtain ⟨f, hf', hd⟩ := h.decided
  obtain rfl := Option.some.inj (hf'.symm.trans hf)
  exact hd.2.2.2 hr

/-- One step of a poll performs an operation that its thread may perform, and
moves the task to the stage of the next position.  The two panics of
`TaskHandle::wait` and the branch of a continuation that writes nothing are not
reached. -/
theorem pollNext_spec (hi : Inv prog m) (hb : prog.Built x) {pends : Bool} {p : PollPc V P}
    {r : PollResult V P} {op : Op V P} (ha : m.At i x.id p.stage) (hk : p.Knows prog x m)
    (h : pollNext prog x pends p m = some (r, op)) :
    op.Pre prog i m ∧ (op.moveTo = some (x.id, r.stage) ∨ op.still = true ∧ r.stage = p.stage) ∧
      r.Knows prog x (op.exec m) := by
  cases pollNext_step h with
  | invoke hp => exact ⟨⟨.inl ⟨hb.pred.symm.trans hp, rfl⟩, _, ha, .inl rfl⟩, .inl rfl, trivial⟩
  | await hp => exact ⟨trivial, .inr ⟨rfl, rfl⟩, hb.pred.symm.trans hp⟩
  | wake hr => exact ⟨⟨hr, .inr ⟨ha, hk⟩⟩, .inl rfl, hk⟩
  | @takeReady p hs => exact ⟨trivial, .inr ⟨rfl, rfl⟩, hk, (hi.life.cell p).finish_of_ready hs⟩
  | @takePanicked p _ hs =>
      obtain ⟨hres, hw⟩ := hi.linked.at ha hk
      obtain ⟨rfl, q, hs⟩ := TaskState.take_eq_panicked.mp hs
      have hf := (hi.life.cell p).finish_of_panicked hs
      exact ⟨⟨hw, hres, ⟨ha, hk⟩, .inl ⟨hf, rfl⟩⟩, .inl rfl, hk⟩
  | takeCancelled hs =>
      obtain ⟨hres, hw⟩ := hi.linked.at ha hk
      exact ⟨⟨hw, hres, ⟨ha, hk⟩, .inr ⟨hs, rfl⟩⟩, .inl rfl, hk⟩
  | @takePending p hs =>
      obtain ⟨-, hw⟩ := hi.linked.at ha hk
      exact absurd hs ((hi.life.cell p).woken_of_wakes hw).state_ne_pending
  | takeBuffer hv =>
      obtain ⟨hp, hf⟩ := hk
      obtain ⟨hres, hw⟩ := hi.linked.at ha hp
      exact ⟨⟨hw, hres, ⟨ha, hp⟩, hf, hv⟩, .inl rfl, hp⟩
  | @takeNone p hv =>
      obtain ⟨hp, hf⟩ := hk
      obtain ⟨hres, hw⟩ := hi.linked.at ha hp
      exact absurd hv (((hi.life.cell p).woken_of_wakes hw).buffer_ne_none hf hres)
  | @predReturned p v =>
      obtain ⟨hres, -⟩ := hi.linked.at ha hk
      exact ⟨⟨.inr ⟨p, v, hk, rfl, hres⟩, _, ha, .inr ⟨_, rfl⟩⟩, .inl rfl, trivial⟩
  | @silent p r hs hne =>
      obtain ⟨hres, hw⟩ := hi.linked.at ha hk
      obtain ⟨v, rfl⟩ := ((hi.life.cell p).woken_of_wakes hw).result_of_ready hs hres
      exact absurd rfl (hne v)
  | @predPanicked p _ _ hs =>
      obtain ⟨rfl, q, hs⟩ := TaskState.take_eq_panicked.mp hs
      exact ⟨trivial, .inr ⟨rfl, rfl⟩, rfl, p, hk, (hi.life.cell p).finish_of_panicked hs⟩
  | @predCancelled p r hs =>
      obtain ⟨-, hw⟩ := hi.linked.at ha hk
      have hwok := (hi.life.cell p).woken_of_wakes hw
      have hs := hs.resolve_right hwok.state_ne_pending
      exact ⟨trivial, .inr ⟨rfl, rfl⟩, hi.life.cancelled p hs⟩
  | pending => exact ⟨trivial, .inr ⟨rfl, rfl⟩, trivial⟩
  | returns hr => exact ⟨⟨_, ha, hr⟩, .inl rfl, trivial⟩
  | panic hq => exact ⟨⟨_, _, ha, hq⟩, .inl rfl, trivial⟩
  | writeBuffer | writeReady => exact ⟨ha, .inl rfl, trivial⟩
  | @replace r => exact ⟨⟨.inr ⟨r, ha⟩, hk⟩, .inl rfl, trivial⟩

/-- What was learned stays true. -/
theorem PollPc.Knows.mono {p : PollPc V P} (h : p.Knows prog x m) (hg : m.Grows m') :
    p.Knows prog x m' := by
  cases p with
  | takeBuffer p => exact ⟨h.1, (hg.cell p).finish _ h.2⟩
  | replace r st f => exact hg.skips h
  | _ => exact h

/-! ## Settling -/

/-- What the thread that settles `x` knows: the semaphores it is past are
signalled. -/
def SettlePc.Knows (prog : Program V P) (x : Task) (m : Shared V P) : SettlePc → Prop
  | .signals ss => ∃ past, prog.semaphores x.id = past ++ ss ∧ ∀ s ∈ past, m.sem s = true
  | .wakeQueue => True

theorem SettlePc.Knows.mono {sp : SettlePc} (h : sp.Knows prog x m) (hg : m.Grows m') :
    sp.Knows prog x m' := by
  cases sp with
  | signals ss => exact h.imp fun past hp => ⟨hp.1, fun s hs => hg.sem s (hp.2 s hs)⟩
  | wakeQueue => trivial

theorem SettlePc.Knows.begin (hb : prog.Built x) : (SettlePc.begin x).Knows prog x m :=
  ⟨[], by simp [hb.semaphores], by simp⟩

/-- One step of a settling site.  At its end the task is gone. -/
theorem settleNext_spec (hb : prog.Built x) {site : Site} {sp : SettlePc} {sp' : Option SettlePc}
    {op : Op V P} (hh : m.Has prog (.thread i) ((x, sp.stage site) :: l))
    (hk : sp.Knows prog x m) (h : settleNext x site sp = (sp', op)) :
    op.Pre prog i m ∧
      match sp' with
      | some sp' => (op.exec m).Has prog (.thread i) ((x, sp'.stage site) :: l) ∧
          sp'.Knows prog x (op.exec m)
      | none => (op.exec m).Has prog (.thread i) l := by
  have ha := hh.head_at
  cases sp with
  | signals ss =>
      obtain ⟨past, hss, hpast⟩ := hk
      cases ss with
      | nil =>
          obtain ⟨rfl, rfl⟩ := Prod.mk.inj h
          refine ⟨⟨ha, fun s hs => hpast s (by simpa [hss] using hs)⟩, hh.stageOf rfl, trivial⟩
      | cons s ss =>
          obtain ⟨rfl, rfl⟩ := Prod.mk.inj h
          refine ⟨⟨ha, by simp [hss]⟩, hh.still rfl, past ++ [s], by simp [hss], ?_⟩
          intro s' hs'
          simp only [Op.exec]
          by_cases he : s' = s
          · simp [he]
          · have : s' ∈ past := by simpa [he] using hs'
            simpa [he] using hpast s' this
  | wakeQueue =>
      obtain ⟨rfl, rfl⟩ := Prod.mk.inj h
      refine ⟨⟨ha, hb.home⟩, ?_⟩
      have hr : (m.modify x.id fun c => { c with
          queueWakes := c.queueWakes ++ [site], owner := .gone, stage := .settled site }).Has
          prog (.thread i) l := hh.release (by simp)
      exact ⟨hr.holds, hr.built⟩

end MVSync
