import MVSync.Pool.Guard

/-!
# Every operation keeps the table of stages

One lemma per operation that changes what the table or the links speak about,
and `Life.exec` and `Linked.exec` from them.  The other operations only move
values.
-/

namespace MVSync

variable {V P : Type} {prog : Program V P} {m : Shared V P} {i : Tid} {t : TaskId}

/-! ## Reading the table -/

theorem Cell.Unwoken.congr {c c' : Cell V P} (h : c.Unwoken) (hw : c'.wakes = c.wakes)
    (hq : c'.queueWakes = c.queueWakes) (ht : c'.takes = c.takes) (hs : c'.signal = c.signal)
    (hr : c'.result = c.result) : c'.Unwoken :=
  ⟨hw.trans h.wakes, hq.trans h.queueWakes, ht.trans h.takes, hs ▸ h.ready, hr.trans h.result⟩

/-- A task whose body was not invoked yet. -/
theorem Life.unstarted (h : Life prog m) {st : Stage V P} (ha : m.At i t st)
    (hst : st = .fresh ∨ st.waits = true) :
    (m.cell t).Open ∧ (m.cell t).invoked = [] ∧ (m.cell t).finish = none ∧
      (m.cell t).buffer = none := by
  have hc := h.cell t
  rw [CellOk, ha.2] at hc
  cases st <;> first | exact hc | simp [Stage.waits] at hst

/-- The body of a task has the outcome that the chain computes. -/
theorem Life.evals_body (h : Life prog m) {v : Option V} (hv : v ∈ (m.cell t).invoked) :
    prog.Evals t (prog.body t v) := by
  obtain ⟨-, -, hi⟩ := h.invoked t v hv
  rcases hi with ⟨hp, rfl⟩ | ⟨p, a, hp, rfl, ha⟩
  · exact .root hp
  · exact .next hp ((h.cell p).resultOk ha).1.1

/-! ## The future of a task -/

theorem Life.invoke (h : Life prog m) {v : Option V} (hp : (Op.invoke t v).Pre prog i m) :
    Life prog ((Op.invoke t v).exec m) := by
  obtain ⟨hi, st, ha, hst⟩ := hp
  have hw : st.waits = true := by
    rcases hst with rfl | ⟨r, rfl⟩ <;> rfl
  obtain ⟨ho, hinv, hfin, hbuf⟩ := h.unstarted ha (.inr hw)
  simp only [Op.exec]
  refine h.modify ?_ ?_ ?_
  · exact ⟨⟨ho.1.congr rfl rfl rfl rfl rfl, ho.2⟩, by simp [hinv], hfin, hbuf⟩
  · simp [Stage.waits]
  · refine { h.kept t with invoked := fun v' hv' => ?_ }
    simp only [hinv, List.nil_append, List.mem_singleton] at hv' ⊢
    subst hv'
    exact ⟨rfl, h.waited t (ha.2 ▸ hw), hi⟩

theorem Life.bodyReturns (h : Life prog m) {r : V} (hp : (Op.bodyReturns t r).Pre prog i m) :
    Life prog ((Op.bodyReturns t r).exec m) := by
  obtain ⟨v, ha, hr⟩ := hp
  have hc := h.cell t
  rw [CellOk, ha.2] at hc
  obtain ⟨ho, hinv, -, hbuf⟩ := hc
  have he := h.evals_body (t := t) (v := v) (by simp [hinv])
  simp only [Op.exec]
  refine h.modify ?_ ?_ ?_
  · exact ⟨⟨ho.1.congr rfl rfl rfl rfl rfl, ho.2⟩, rfl, hbuf, hr ▸ he⟩
  · simp [Stage.waits]
  · exact { h.kept t with finish := by simp }

theorem Life.futurePanics (h : Life prog m) (hp : (Op.futurePanics t).Pre prog i m) :
    Life prog ((Op.futurePanics t).exec m) := by
  obtain ⟨v, q, ha, hq⟩ := hp
  have hc := h.cell t
  rw [CellOk, ha.2] at hc
  obtain ⟨ho, hinv, -, -⟩ := hc
  have he := h.evals_body (t := t) (v := v) (by simp [hinv])
  simp only [Op.exec]
  refine h.modify ?_ ?_ ?_
  · exact ⟨⟨ho.1.congr rfl rfl rfl rfl rfl, ho.2⟩, rfl, q, hq ▸ he⟩
  · simp [Stage.waits]
  · exact { h.kept t with finish := by simp }

theorem Life.writeBuffer (h : Life prog m) {r : V} (hp : (Op.writeBuffer t r).Pre prog i m) :
    Life prog ((Op.writeBuffer t r).exec m) := by
  have hc := h.cell t
  rw [CellOk, hp.2] at hc
  obtain ⟨ho, hfin, -, he⟩ := hc
  simp only [Op.exec]
  refine h.modify ?_ ?_ ?_
  · exact ⟨⟨ho.1.congr rfl rfl rfl rfl rfl, ho.2⟩, hfin, r, rfl, he⟩
  · simp [Stage.waits]
  · exact { h.kept t with }

theorem Life.writeReady (h : Life prog m) (hp : (Op.writeReady t).Pre prog i m) :
    Life prog ((Op.writeReady t).exec m) := by
  have hc := h.cell t
  rw [CellOk, hp.2] at hc
  obtain ⟨ho, hfin, r, hr, he⟩ := hc
  simp only [Op.exec]
  refine h.modify ?_ ?_ ?_
  · refine ⟨ho.1.congr rfl rfl rfl rfl rfl, .returned, hfin, .inl rfl, ⟨r, he⟩, ?_, ?_⟩
    · intro r' hr'
      obtain rfl := Option.some.inj (hr.symm.trans hr')
      exact he
    · intro _
      simp [hr]
  · simp [Stage.waits]
  · exact { h.kept t with cancelled := by simp }

theorem Life.replace (h : Life prog m) {st : TaskState P} {f : Finish}
    (hp : (Op.replace t st f).Pre prog i m) : Life prog ((Op.replace t st f).exec m) := by
  obtain ⟨ha, hs⟩ := hp
  have hu : (m.cell t).Open ∧ (m.cell t).invoked = [] ∧ (m.cell t).finish = none ∧
      (m.cell t).buffer = none := by
    rcases ha with ha | ⟨r, ha⟩
    · exact h.unstarted ha (.inl rfl)
    · exact h.unstarted ha (.inr rfl)
  obtain ⟨ho, -, -, -⟩ := hu
  have hd : st = .panicked .unit ∧ f = .panicked ∧ (∃ q, prog.Evals t (.error q)) ∨
      st = .cancelled ∧ f = .cancelled ∧ SomeCancel m := by
    unfold Skips at hs
    split at hs
    · obtain ⟨rfl, p, hp, hf⟩ := hs
      obtain ⟨q, hq⟩ := (h.cell p).evals_of_panicked hf
      exact .inl ⟨rfl, rfl, q, .skip hp hq⟩
    · exact .inr ⟨rfl, rfl, hs⟩
    · exact hs.elim
  simp only [Op.exec]
  refine h.modify ?_ ?_ ?_
  · refine ⟨ho.1.congr rfl rfl rfl rfl rfl, f, rfl, ?_⟩
    rcases hd with ⟨rfl, rfl, he⟩ | ⟨rfl, rfl, -⟩
    · exact ⟨.inl ⟨_, rfl⟩, he⟩
    · rfl
  · simp [Stage.waits]
  · refine { h.kept t with cancelled := fun hc => ?_, finish := by simp }
    rcases hd with ⟨rfl, -, -⟩ | ⟨-, -, hcan⟩
    · cases hc
    · exact .inl hcan

/-- What a `cancel` does to the cell of its task. -/
def Cell.cancel (c : Cell V P) : Cell V P := { c with state := .cancelled, cancelled := true }

theorem Cell.Open.cancel {c : Cell V P} (h : c.Open) : c.cancel.Open :=
  ⟨h.1.congr rfl rfl rfl rfl rfl, .inr ⟨rfl, rfl⟩⟩

theorem Cell.Decided.cancel {c : Cell V P} {f : Finish} (h : c.Decided prog t f) :
    c.cancel.Decided prog t f := by
  cases f with
  | returned => exact ⟨.inr rfl, h.2⟩
  | panicked => exact ⟨.inr rfl, h.2⟩
  | cancelled => rfl
  | silent => exact h

theorem Cell.Woken.cancel {c : Cell V P} (h : c.Woken prog t) : c.cancel.Woken prog t where
  decided := h.decided.imp fun _ hf => ⟨hf.1, hf.2.cancel⟩
  flag := h.flag
  result r hr := by
    have hok := h.result r hr
    cases r with
    | returned => exact hok
    | panicked => exact hok
    | cancelled => rfl

theorem CellOk.cancel {c : Cell V P} (h : CellOk prog t c) : CellOk prog t c.cancel := by
  obtain ⟨_, _, _, _, _, st, _, _, _, _, _, _, _⟩ := c
  cases st with
  | finished => exact ⟨h.1.congr rfl rfl rfl rfl rfl, h.2.imp fun _ hf => ⟨hf.1, hf.2.cancel⟩⟩
  | woken s => exact ⟨h.1.cancel, h.2⟩
  | settled s => exact ⟨h.1.cancel, h.2⟩
  | _ => exact ⟨h.1.cancel, h.2⟩

theorem Life.cancel (h : Life prog m) : Life prog ((Op.cancel t).exec m) := by
  simp only [Op.exec]
  refine h.modify ?_ ?_ ?_
  · exact (h.cell t).cancel
  · exact h.waited t
  · exact { h.kept t with cancelled := fun _ => .inr rfl, cancels := fun _ => rfl }

/-! ## Waiting for a task -/

theorem Life.wakes_of_ready (h : Life prog m) (hr : (m.cell t).signal.ready = true) :
    (m.cell t).wakes ≠ [] := by
  obtain ⟨-, -, s, -, hs⟩ := (h.cell t).woken_of_ready hr
  simp [hs]

/-- A change of a woken cell that keeps its stage. -/
theorem Cell.Woken.cellOk {c c' : Cell V P} (h : CellOk prog t c) (hw : c.wakes ≠ [])
    (hs : c'.stage = c.stage) (hwakes : c'.wakes = c.wakes) (hq : c'.queueWakes = c.queueWakes)
    (hk : c.Woken prog t → c'.Woken prog t) : CellOk prog t c' := by
  rcases h.phase with hu | ⟨hk', s, hst, -⟩
  · exact absurd hu.wakes hw
  · unfold CellOk at h ⊢
    rcases hst with hst | hst <;> simp only [hst, hs] at h ⊢ <;>
      exact ⟨hk hk', hwakes.trans h.2.1, hq.trans h.2.2⟩

/-- A wait on a signal takes its flag. -/
theorem Life.takeFlag (h : Life prog m) {k : Taker} (hr : (m.cell t).signal.ready = true) :
    Life prog (m.modify t fun c =>
      { c with signal := { c.signal with ready := false }, takes := c.takes ++ [k] }) := by
  refine h.modify ?_ ?_ ?_
  · refine Cell.Woken.cellOk (h.cell t) (h.wakes_of_ready hr) rfl rfl rfl fun hk => ?_
    obtain ⟨-, ht, -⟩ := (h.cell t).woken_of_ready hr
    exact ⟨hk.decided, .inr ⟨⟨k, by simp [ht]⟩, rfl⟩, hk.result⟩
  · exact h.waited t
  · exact { h.kept t with }

theorem Life.takeResult (h : Life prog m) {r : TaskResult V P} {b : Option V}
    (hw : (m.cell t).wakes ≠ []) (hres : (m.cell t).result = none)
    (hb : b = (m.cell t).buffer ∨ b = none) (hr : (m.cell t).ResultOk prog t r) :
    Life prog (m.modify t fun c => { c with buffer := b, result := some r }) := by
  refine h.modify ?_ ?_ ?_
  · refine Cell.Woken.cellOk (h.cell t) hw rfl rfl rfl fun hk => ⟨?_, hk.flag, ?_⟩
    · obtain ⟨f, hf, hd⟩ := hk.decided
      refine ⟨f, hf, ?_⟩
      cases f with
      | returned =>
          obtain ⟨hs, he, hbuf, -⟩ := hd
          refine ⟨hs, he, fun r' hr' => ?_, by simp⟩
          rcases hb with rfl | rfl
          · exact hbuf r' hr'
          · cases hr'
      | panicked => exact hd
      | cancelled => exact hd
      | silent => exact hd
    · intro r' hr'
      obtain rfl := Option.some.inj hr'
      cases r with
      | returned => exact hr
      | panicked => exact hr
      | cancelled => exact hr
  · exact h.waited t
  · exact { h.kept t with result := by simp [hres] }

/-- A continuation that has taken something of its predecessor. -/
theorem Life.advance (h : Life prog m) {c : TaskId} {st st' : Stage V P} (ha : m.At i c st)
    (hst : st.waits = true) (hst' : st'.waits = true) :
    Life prog (m.modify c fun x => { x with stage := st' }) := by
  obtain ⟨ho, hinv, hfin, hbuf⟩ := h.unstarted ha (.inr hst)
  refine h.modify ?_ ?_ ?_
  · have hc : Cell.Open { m.cell c with stage := st' } := ⟨ho.1.congr rfl rfl rfl rfl rfl, ho.2⟩
    cases st' <;> first | exact ⟨hc, hinv, hfin, hbuf⟩ | cases hst'
  · exact fun _ => h.waited c (ha.2 ▸ hst)
  · exact { h.kept c with }

theorem Shared.At.modify_of_ne {c : TaskId} {st : Stage V P} {f : Cell V P → Cell V P}
    (h : m.At i c st) (hc : c ≠ t) : (m.modify t f).At i c st := by
  unfold Shared.At at h ⊢
  rwa [Shared.modify_cell_of_ne _ _ hc]

/-- Whoever takes something of `t` moves on. -/
theorem Life.takerAdvance {f : Cell V P → Cell V P} {k : Taker} {st st' : Stage V P}
    (h : Life prog (m.modify t f)) (hk : k = .observer ∨ Entitled prog m i t st k)
    (hst : st.waits = true) (hst' : st'.waits = true) :
    Life prog (k.advance st' (m.modify t f)) := by
  cases k with
  | continuation c =>
      obtain ⟨ha, hp⟩ := hk.resolve_left nofun
      have hne : c ≠ t := (Nat.ne_of_lt (Program.pred_lt hp)).symm
      exact h.advance (ha.modify_of_ne hne) hst hst'
  | handle => exact h
  | observer => exact h

/-! ## Settling -/

theorem Life.signalSem (h : Life prog m) {s : SemId} (hp : (Op.signalSem t s).Pre prog i m) :
    Life prog ((Op.signalSem t s).exec m) := by
  obtain ⟨ha, hs⟩ := hp
  have hmono : ∀ s', m.sem s' = true → ((Op.signalSem t s).exec m).sem s' = true := by
    intro s' hs'
    simp only [Op.exec]
    by_cases he : s' = s
    · simp [he]
    · simpa [he] using hs'
  refine ⟨h.cell, fun u hu s' hs' => hmono s' (h.waited u hu s' hs'), fun u v hv => ?_,
    fun u hu s' hs' => hmono s' (h.signalled u hu s' hs'), h.cancelled, fun s' hs' => ?_⟩
  · obtain ⟨h₁, h₂, h₃⟩ := h.invoked u v hv
    exact ⟨h₁, fun s' hs' => hmono s' (h₂ s' hs'), h₃⟩
  · by_cases he : s' = s
    · subst he
      have hc := h.cell t
      rw [CellOk, ha.2] at hc
      obtain ⟨-, f, hf, -⟩ := hc
      exact ⟨t, hs, by simp [Op.exec, hf]⟩
    · exact h.sem s' (by simpa [Op.exec, he] using hs')

theorem Life.wakeSignal (h : Life prog m) {site : Site}
    (hp : (Op.wakeSignal t site).Pre prog i m) : Life prog ((Op.wakeSignal t site).exec m) := by
  obtain ⟨ha, hs⟩ := hp
  have hc := h.cell t
  rw [CellOk, ha.2] at hc
  obtain ⟨hu, f, hf, hd⟩ := hc
  simp only [Op.exec]
  refine h.modify ?_ ?_ ?_
  · refine ⟨⟨⟨f, hf, ?_⟩, .inl ⟨hu.takes, rfl⟩, fun r hr => ?_⟩, by simp [hu.wakes], hu.queueWakes⟩
    · cases f <;> exact hd
    · simp [hu.result] at hr
  · simp [Stage.waits]
  · exact { h.kept t with signalled := fun _ => hs }

theorem Life.wakeQueue (h : Life prog m) {home : Bool} {site : Site}
    (hp : (Op.wakeQueue t home site).Pre prog i m) :
    Life prog ((Op.wakeQueue t home site).exec m) := by
  have hc := h.cell t
  rw [CellOk, hp.1.2] at hc
  obtain ⟨hw, hwakes, hq⟩ := hc
  have hm : Life prog (m.modify t fun c =>
      { c with queueWakes := c.queueWakes ++ [site], owner := .gone, stage := .settled site }) := by
    refine h.modify ?_ ?_ ?_
    · obtain ⟨⟨f, hf, hd⟩, hflag, hres⟩ := hw
      refine ⟨⟨⟨f, hf, ?_⟩, hflag, fun r hr => ?_⟩, hwakes, by simp [hq]⟩
      · cases f <;> exact hd
      · have := hres r hr
        cases r <;> exact this
    · simp [Stage.waits]
    · exact { h.kept t with }
  exact hm.moved ⟨fun _ => .refl _, rfl⟩

/-! ## Handing over -/

theorem Life.pass (h : Life prog m) {o : Owner} (ha : m.At i t .fresh) (hw : Waited prog m t) :
    Life prog (m.modify t fun c => { c with owner := o, stage := .passed }) := by
  obtain ⟨ho, hinv, hfin, hbuf⟩ := h.unstarted ha (.inl rfl)
  refine h.modify ?_ ?_ ?_
  · exact ⟨⟨ho.1.congr rfl rfl rfl rfl rfl, ho.2⟩, hinv, hfin, hbuf⟩
  · exact fun _ => hw
  · exact { h.kept t with }

theorem Life.replacePanicked (h : Life prog m) {q : Payload P} {w : WorkerId}
    (hp : (Op.replacePanicked t q w).Pre prog i m) :
    Life prog ((Op.replacePanicked t q w).exec m) := by
  have hc := h.cell t
  rw [CellOk, hp.2.2] at hc
  obtain ⟨ho, hfin, he⟩ := hc
  have hm : Life prog
      (m.modify t fun c => { c with state := .panicked q, stage := .finished }) := by
    refine h.modify ?_ ?_ ?_
    · exact ⟨ho.1.congr rfl rfl rfl rfl rfl, .panicked, hfin, .inl ⟨q, rfl⟩, he⟩
    · simp [Stage.waits]
    · exact { h.kept t with cancelled := by simp }
  exact hm.moved ⟨fun _ => .refl _, rfl⟩

theorem Life.foundCancelled (h : Life prog m) {w : WorkerId}
    (hp : (Op.foundCancelled t w).Pre prog i m) :
    Life prog ((Op.foundCancelled t w).exec m) := by
  obtain ⟨-, ⟨v, ha⟩, hs⟩ := hp
  have hc := h.cell t
  rw [CellOk, ha.2] at hc
  obtain ⟨ho, -, -, -⟩ := hc
  have hm : Life prog (m.modify t fun c =>
      { c with finish := some .cancelled, stage := .finished }) := by
    refine h.modify ?_ ?_ ?_
    · exact ⟨ho.1.congr rfl rfl rfl rfl rfl, .cancelled, rfl, hs⟩
    · simp [Stage.waits]
    · exact { h.kept t with finish := by simp }
  exact hm.moved ⟨fun _ => .refl _, rfl⟩

/-! ## All operations -/

/-- The operations that only move values. -/
def Op.moves : Op V P → Bool
  | .tau | .pollSignal _ _ _ | .moveHandle _ _ | .recv | .fetchSub _ | .waitQueueSignal
  | .exitDispatcher | .dropDispatcher | .recvWorker _ | .fetchAdd _ | .waitWorkerSignal _
  | .wakeWorker _ | .beginSubmit _ _ | .send _ | .endSubmit | .failSubmit _ | .dropQueue
  | .beginRun _ _ | .dropTask _ | .dropCaller _ | .newCallerSignal _ | .waitCallerSignal _
  | .wakeCaller _ => true
  | _ => false

theorem Op.moved {o : Op V P} (hp : o.Pre prog i m) (ho : o.moves = true) : m.Moved (o.exec m) := by
  have own : ∀ (t : TaskId) (o : Owner), m.Moved (m.modify t fun c => { c with owner := o }) :=
    fun t o => .modify (.owner _ _)
  cases o <;> simp only [Op.moves, Bool.false_eq_true] at ho <;> simp only [Op.exec]
  case pollSignal t e b =>
    exact .modify ⟨_, _, _, fun _ => id, Signal.poll_ready _ _ _, rfl⟩
  case moveHandle t e => exact .modify ⟨_, _, _, by simp [hp.2.2], rfl, rfl⟩
  case recv =>
    split
    · exact .refl m
    · exact own _ _
  case dropDispatcher =>
    exact (Shared.Moved.drop m (.thread .dispatcher)).trans (.drop _ .channel)
  case recvWorker w =>
    split
    · exact .refl m
    · exact own _ _
  case beginSubmit e ts => exact .move m ts _
  case send x => exact own _ _
  case failSubmit e => exact .drop m _
  case beginRun e ts => exact .move m ts _
  case dropTask t => exact own _ _
  case dropCaller e => exact .drop m _
  all_goals exact ⟨fun _ => .refl _, rfl⟩

/-- The result that a wait takes is one that the table allows. -/
theorem Op.Pre.resultOk {k : Taker} {r : TaskResult V P}
    (hp : (Op.takeResult t k r).Pre prog i m) : (m.cell t).ResultOk prog t r := by
  obtain ⟨-, -, -, hr⟩ := hp
  rcases hr with ⟨hf, rfl⟩ | ⟨hs, rfl⟩
  · exact ⟨rfl, hf⟩
  · exact hs

theorem Op.Pre.bufferOk (h : Life prog m) {k : Taker} {v : V}
    (hp : (Op.takeBuffer t k v).Pre prog i m) : (m.cell t).ResultOk prog t (.returned v) := by
  obtain ⟨hw, -, -, hf, hb⟩ := hp
  obtain ⟨f, hf', hd⟩ := ((h.cell t).woken_of_wakes hw).decided
  obtain rfl := Option.some.inj (hf'.symm.trans hf)
  exact ⟨hd.2.2.1 v hb, hf⟩

/-- Every allowed operation keeps the table. -/
theorem Life.exec (h : Life prog m) {o : Op V P} (hp : o.Pre prog i m) : Life prog (o.exec m) := by
  by_cases hm : o.moves = true
  · exact h.moved (Op.moved hp hm)
  cases o <;> simp only [Op.moves, not_true_eq_false] at hm
  case invoke => exact h.invoke hp
  case bodyReturns => exact h.bodyReturns hp
  case futurePanics => exact h.futurePanics hp
  case writeBuffer => exact h.writeBuffer hp
  case writeReady => exact h.writeReady hp
  case replace => exact h.replace hp
  case silent => exact hp.elim
  case waitSignal => exact (h.takeFlag hp.1).takerAdvance hp.2 rfl rfl
  case takeResult =>
    exact (h.takeResult hp.1 hp.2.1 (.inl rfl) (Op.Pre.resultOk hp)).takerAdvance
      (.inr hp.2.2.1) rfl rfl
  case takeBuffer =>
    exact (h.takeResult hp.1 hp.2.1 (.inr rfl) (Op.Pre.bufferOk h hp)).takerAdvance
      (.inr hp.2.2.1) rfl rfl
  case cancel => exact h.cancel
  case signalSem => exact h.signalSem hp
  case wakeSignal => exact h.wakeSignal hp
  case wakeQueue => exact h.wakeQueue hp
  case sendWorker w x =>
    obtain ⟨-, ha, -, hw, -⟩ := hp
    exact (h.pass ha hw).moved ⟨fun _ => .refl _, rfl⟩
  case replacePanicked => exact h.replacePanicked hp
  case foundCancelled => exact h.foundCancelled hp
  case pass => exact h.pass hp.1 hp.2

/-! ## The links -/

/-- What a continuation that a thread has knows of its predecessor. -/
theorem Linked.at (h : Linked prog m) {st : Stage V P} {p : TaskId} (ha : m.At i t st)
    (hp : prog.pred t = some p) : LinkOk st (m.cell p) := by
  obtain ⟨-, rfl⟩ := ha
  exact h t p hp

/-- Whoever takes something of `t` learns what its new stage says. -/
theorem Linked.takerAdvance (h : Linked prog m) {f : Cell V P → Cell V P} {k : Taker}
    {st st' : Stage V P} (hk : k = .observer ∨ Entitled prog m i t st k)
    (hstage : (f (m.cell t)).stage = (m.cell t).stage)
    (hobs : k = .observer → ∀ st, LinkOk st (m.cell t) → LinkOk st (f (m.cell t)))
    (hnew : LinkOk st (m.cell t) → LinkOk st' (f (m.cell t))) :
    Linked prog (k.advance st' (m.modify t f)) := by
  cases k with
  | continuation c =>
      obtain ⟨ha, hc⟩ := hk.resolve_left nofun
      have hct : c ≠ t := (Nat.ne_of_lt (Program.pred_lt hc)).symm
      intro u p hp
      simp only [Taker.advance]
      by_cases huc : u = c
      · subst huc
        obtain rfl := Option.some.inj (hp.symm.trans hc)
        rw [Shared.modify_cell_self, Shared.modify_cell_of_ne _ _ hct.symm,
          Shared.modify_cell_self]
        exact hnew (ha.2 ▸ h u p hp)
      · have hpt : p ≠ t := fun e => huc (Program.pred_unique (e ▸ hp) hc)
        rw [Shared.modify_cell_of_ne _ _ huc]
        have hs : ((m.modify t f).cell u).stage = (m.cell u).stage := by
          by_cases hut : u = t
          · subst hut
            rw [Shared.modify_cell_self, hstage]
          · rw [Shared.modify_cell_of_ne _ _ hut]
        rw [hs]
        by_cases hpc : p = c
        · subst hpc
          rw [Shared.modify_cell_self, Shared.modify_cell_of_ne _ _ hpt]
          exact h u p hp
        · rw [Shared.modify_cell_of_ne _ _ hpc, Shared.modify_cell_of_ne _ _ hpt]
          exact h u p hp
  | handle =>
      obtain ⟨hs, -⟩ := hk.resolve_left nofun
      refine h.modify (fun u hu _ => ?_) (fun p _ hl => hstage ▸ hl)
      simp [Program.pred_succ, hs] at hu
  | observer => exact h.modify (fun u _ hl => hobs rfl _ hl) (fun p _ hl => hstage ▸ hl)

/-- Every allowed operation keeps the links. -/
theorem Linked.exec (h : Linked prog m) (hl : Life prog m) {o : Op V P} (hp : o.Pre prog i m) :
    Linked prog (o.exec m) := by
  by_cases hm : o.moves = true
  · exact h.moved (Op.moved hp hm)
  cases o <;> simp only [Op.moves, not_true_eq_false] at hm
  case waitSignal t k =>
    have hw := hl.wakes_of_ready hp.1
    refine h.takerAdvance hp.2 rfl (fun hk st hst => ?_) (fun hst => ⟨hst.1, hw⟩)
    subst hk
    cases st <;> first | exact hst | skip
    all_goals
      refine ⟨hst.1, fun k hk => ?_⟩
      rcases List.mem_append.mp hk with hk | hk
      · exact hst.2 k hk
      · exact List.mem_singleton.mp hk
  case takeResult t k r =>
    refine h.takerAdvance (.inr hp.2.2.1) rfl (fun hk => ?_) (fun _ => ⟨rfl, hp.1⟩)
    subst hk
    exact hp.2.2.1.elim
  case takeBuffer t k v =>
    refine h.takerAdvance (.inr hp.2.2.1) rfl (fun hk => ?_) (fun _ => ⟨rfl, hp.1⟩)
    subst hk
    exact hp.2.2.1.elim
  case wakeSignal t site =>
    simp only [Op.exec]
    refine h.modify (fun u _ hst => ?_) (fun _ _ _ => trivial)
    generalize (m.cell u).stage = st at hst ⊢
    cases st <;> first | exact hst | exact ⟨hst.1, by simp⟩
  case silent => exact hp.elim
  case sendWorker w x =>
    have hl : Linked prog (m.modify x.id fun c =>
        { c with owner := .workerChannel w, stage := .passed }) := by
      refine h.modify (fun _ _ hst => hst) (fun p _ hst => ?_)
      rw [hp.2.1.2] at hst
      exact hst
    exact hl
  case pass t =>
    simp only [Op.exec]
    refine h.modify (fun _ _ hst => hst) (fun p _ hst => ?_)
    rw [hp.1.2] at hst
    exact hst
  case signalSem => exact h
  case wakeQueue t home site =>
    have hl : Linked prog (m.modify t fun c =>
        { c with queueWakes := c.queueWakes ++ [site], owner := .gone, stage := .settled site }) :=
      h.modify (fun _ _ hst => hst) (fun _ _ _ => trivial)
    exact hl
  case replacePanicked t q w =>
    have hl : Linked prog (m.modify t fun c =>
        { c with state := .panicked q, stage := .finished }) :=
      h.modify (fun _ _ hst => hst) (fun _ _ _ => trivial)
    exact hl
  case foundCancelled t w =>
    have hl : Linked prog (m.modify t fun c =>
        { c with finish := some .cancelled, stage := .finished }) :=
      h.modify (fun _ _ hst => hst) (fun _ _ _ => trivial)
    exact hl
  case cancel =>
    simp only [Op.exec]
    exact h.modify (fun _ _ hst => hst) (fun _ _ hst => hst)
  all_goals
    simp only [Op.exec]
    exact h.modify (fun _ _ hst => hst) (fun _ _ _ => trivial)

end MVSync
