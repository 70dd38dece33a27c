import MVSync.Pool.LifeSteps

/-!
# What changes and what only grows

`Op.CellStep` lists, field by field, the operations that change the cell of a
task.

Semaphores stay signalled, a task that finished keeps its outcome, a result that
was handed out stays known, and a state that left `Pending` never returns to it.
Threads rely on this for what they have read before (`Shared.Grows`).
-/

namespace MVSync

variable {V P : Type} {prog : Program V P} {m m' : Shared V P} {i : Tid} {t : TaskId}

/-! ## What an operation changes -/

/-- The operations that change each field of the cell of `t`. -/
structure Op.CellStep (op : Op V P) (t : TaskId) (c c' : Cell V P) : Prop where
  state : c'.state = c.state ∨ op = .writeReady t ∨ op = .cancel t ∨
    (∃ st f, op = .replace t st f) ∨ ∃ q w, op = .replacePanicked t q w := by exact .inl rfl
  ready : c'.signal.ready = c.signal.ready ∨ (∃ k, op = .waitSignal t k) ∨
    ∃ site, op = .wakeSignal t site := by exact .inl rfl
  invoked : c'.invoked = c.invoked ∨ ∃ v, op = .invoke t v := by exact .inl rfl
  wakes : c'.wakes = c.wakes ∨ ∃ site, op = .wakeSignal t site := by exact .inl rfl
  takes : c'.takes = c.takes ∨ ∃ k, op = .waitSignal t k ∧ c'.takes = c.takes ++ [k] := by
    exact .inl rfl
  result : c'.result = c.result ∨ (∃ k r, op = .takeResult t k r) ∨
    ∃ k v, op = .takeBuffer t k v := by exact .inl rfl
  cancelled : c'.cancelled = c.cancelled ∨ op = .cancel t := by exact .inl rfl
  stage : c'.stage = c.stage ∨ op.moveTo = some (t, c'.stage) ∨
    (∃ w x, op = .sendWorker w x ∧ x.id = t) ∨ ∃ home site, op = .wakeQueue t home site := by
      first | exact .inl rfl | exact .inr (.inl rfl)

theorem Op.cellStep_modify {op : Op V P} {u : TaskId} {f : Cell V P → Cell V P}
    (h : op.CellStep u (m.cell u) (f (m.cell u))) :
    op.CellStep t (m.cell t) ((m.modify u f).cell t) := by
  by_cases hu : u = t
  · subst hu
    rw [Shared.modify_cell_self]
    exact h
  · rw [Shared.modify_cell_of_ne _ _ (Ne.symm hu)]
    exact {}

theorem Op.cellStep_advance {op : Op V P} {k : Taker} {st : Stage V P} {c : Cell V P}
    (hk : ∀ u, k = .continuation u → op.moveTo = some (u, st))
    (h : op.CellStep t c (m.cell t)) : op.CellStep t c ((k.advance st m).cell t) := by
  cases k with
  | continuation u =>
      simp only [Taker.advance]
      by_cases hu : u = t
      · subst hu
        rw [Shared.modify_cell_self]
        exact ⟨h.1, h.2, h.3, h.4, h.5, h.6, h.7, .inr (.inl (hk u rfl))⟩
      · rw [Shared.modify_cell_of_ne _ _ (Ne.symm hu)]
        exact h
  | handle => exact h
  | observer => exact h

/-- What an operation can do to a cell. -/
theorem Op.cellStep (op : Op V P) (m : Shared V P) (t : TaskId) :
    op.CellStep t (m.cell t) ((op.exec m).cell t) := by
  cases op <;> simp only [Op.exec]
  case invoke u v => exact cellStep_modify { invoked := .inr ⟨v, rfl⟩ }
  case writeReady u => exact cellStep_modify { state := .inr (.inl rfl) }
  case replace u st f =>
    exact cellStep_modify { state := .inr (.inr (.inr (.inl ⟨st, f, rfl⟩))) }
  case waitSignal u k =>
    refine cellStep_advance (by rintro c rfl; rfl) (cellStep_modify ?_)
    exact { ready := .inr (.inl ⟨k, rfl⟩), takes := .inr ⟨k, rfl, rfl⟩ }
  case takeResult u k r =>
    refine cellStep_advance (by rintro c rfl; rfl) (cellStep_modify ?_)
    exact { result := .inr (.inl ⟨k, r, rfl⟩) }
  case takeBuffer u k v =>
    refine cellStep_advance (by rintro c rfl; rfl) (cellStep_modify ?_)
    exact { result := .inr (.inr ⟨k, v, rfl⟩) }
  case pollSignal u e b => exact cellStep_modify { ready := .inl (Signal.poll_ready _ _ _) }
  case cancel u =>
    exact cellStep_modify { state := .inr (.inr (.inl rfl)), cancelled := .inr rfl }
  case wakeSignal u site =>
    exact cellStep_modify { ready := .inr (.inr ⟨site, rfl⟩), wakes := .inr ⟨site, rfl⟩ }
  case wakeQueue u home site =>
    exact cellStep_modify { stage := .inr (.inr (.inr ⟨home, site, rfl⟩)) }
  case sendWorker w x =>
    exact cellStep_modify { stage := .inr (.inr (.inl ⟨w, x, rfl, rfl⟩)) }
  case replacePanicked u q w =>
    exact cellStep_modify { state := .inr (.inr (.inr (.inr ⟨q, w, rfl⟩))) }
  case recv =>
    split
    · exact {}
    · dsimp only
      exact cellStep_modify {}
  case recvWorker =>
    split
    · exact {}
    · dsimp only
      exact cellStep_modify {}
  case dropDispatcher =>
    simp only [Shared.drop]
    split <;> split <;> exact {}
  case failSubmit =>
    simp only [Shared.drop]
    split <;> exact {}
  case dropCaller =>
    simp only [Shared.drop]
    split <;> exact {}
  case beginSubmit =>
    simp only [Shared.move]
    split <;> exact {}
  case beginRun =>
    simp only [Shared.move]
    split <;> exact {}
  all_goals first | exact {} | exact cellStep_modify {}

/-- The stage of a task is changed by the thread that has it. -/
theorem Op.stage_eq {op : Op V P} (hp : op.Pre prog i m) (ho : (m.cell t).owner ≠ .thread i) :
    ((op.exec m).cell t).stage = (m.cell t).stage := by
  rcases (Op.cellStep op m t).stage with hs | hs | ⟨w, x, rfl, rfl⟩ | ⟨home, site, rfl⟩
  · exact hs
  · exact absurd (hp.at_of_moveTo hs).choose_spec.1 ho
  · exact absurd hp.2.1.1 ho
  · exact absurd hp.1.1 ho

/-! ## What only grows -/

/-- What happened to one task stays so. -/
structure Cell.Grows (c c' : Cell V P) : Prop where
  state : c.state ≠ .pending → c'.state ≠ .pending := by exact id
  invoked : c.invoked <+: c'.invoked := by exact List.prefix_rfl
  finish : ∀ f, c.finish = some f → c'.finish = some f := by exact fun _ => id
  decided : c.stage.decided = true → c'.stage.decided = true := by exact id
  wakes : c.wakes <+: c'.wakes := by exact List.prefix_rfl
  queueWakes : c.queueWakes <+: c'.queueWakes := by exact List.prefix_rfl
  takes : c.takes <+: c'.takes := by exact List.prefix_rfl
  result : ∀ r, c.result = some r → c'.result = some r := by exact fun _ => id
  cancelled : c.cancelled = true → c'.cancelled = true := by exact id
  handle : ∀ e, c.handle = some e → c'.handle = some e := by exact fun _ => id

/-- What happened stays so. -/
structure Shared.Grows (m m' : Shared V P) : Prop where
  cell : ∀ t, (m.cell t).Grows (m'.cell t)
  sem : ∀ s, m.sem s = true → m'.sem s = true

theorem Cell.Grows.refl (c : Cell V P) : c.Grows c := {}

theorem Cell.Grows.trans {a b c : Cell V P} (h : a.Grows b) (h' : b.Grows c) : a.Grows c where
  state := h'.state ∘ h.state
  invoked := h.invoked.trans h'.invoked
  finish f hf := h'.finish f (h.finish f hf)
  decided := h'.decided ∘ h.decided
  wakes := h.wakes.trans h'.wakes
  queueWakes := h.queueWakes.trans h'.queueWakes
  takes := h.takes.trans h'.takes
  result r hr := h'.result r (h.result r hr)
  cancelled := h'.cancelled ∘ h.cancelled
  handle e he := h'.handle e (h.handle e he)

namespace Shared.Grows

theorem refl (m : Shared V P) : m.Grows m := ⟨fun _ => .refl _, fun _ => id⟩

theorem trans {m'' : Shared V P} (h : m.Grows m') (h' : m'.Grows m'') : m.Grows m'' :=
  ⟨fun t => (h.cell t).trans (h'.cell t), fun s hs => h'.sem s (h.sem s hs)⟩

theorem modify {f : Cell V P → Cell V P} (h : (m.cell t).Grows (f (m.cell t))) :
    m.Grows (m.modify t f) := by
  refine ⟨fun u => ?_, fun _ => id⟩
  by_cases hu : u = t
  · subst hu
    rw [Shared.modify_cell_self]
    exact h
  · rw [Shared.modify_cell_of_ne _ _ hu]
    exact .refl _

theorem moved (h : m.Moved m') : m.Grows m' := by
  refine ⟨fun t => ?_, fun s hs => by rw [h.2]; exact hs⟩
  obtain ⟨o, hd, g, hh, -, he⟩ := h.1 t
  rw [he]
  exact { handle := hh }

theorem waited (h : m.Grows m') {t : TaskId} (hw : Waited prog m t) : Waited prog m' t :=
  fun s hs => h.sem s (hw s hs)

theorem someCancel (h : m.Grows m') (hc : SomeCancel m) : SomeCancel m' :=
  hc.imp fun t ht => (h.cell t).cancelled ht

theorem predFinished (h : m.Grows m') {t : TaskId} (hp : PredFinished prog m t) :
    PredFinished prog m' t :=
  fun p hpt => ⟨(h.cell p).decided (hp p hpt).1,
    (hp p hpt).2.imp ((h.cell p).finish _) ((h.cell p).finish _)⟩

theorem skips (h : m.Grows m') {t : TaskId} {st : TaskState P} {f : Finish}
    (hs : Skips prog m t st f) : Skips prog m' t st f := by
  unfold Skips at hs ⊢
  split at hs
  · exact ⟨hs.1, hs.2.imp fun p hp => ⟨hp.1, (h.cell p).finish _ hp.2⟩⟩
  · exact h.someCancel hs
  · exact hs.elim

theorem wakes_ne_nil (h : m.Grows m') {t : TaskId} (hw : (m.cell t).wakes ≠ []) :
    (m'.cell t).wakes ≠ [] := by
  intro he
  have := (h.cell t).wakes
  rw [he, List.prefix_nil] at this
  exact hw this

end Shared.Grows

/-- A continuation that moves on only changes its stage. -/
theorem Taker.advance_grows {k : Taker} {st st' : Stage V P} {f : Cell V P → Cell V P}
    (hf : (m.cell t).Grows (f (m.cell t))) (hk : k = .observer ∨ Entitled prog m i t st k)
    (hst : st.decided = false) : m.Grows (k.advance st' (m.modify t f)) := by
  have hm : m.Grows (m.modify t f) := .modify hf
  cases k with
  | continuation c =>
      obtain ⟨ha, hc⟩ := hk.resolve_left nofun
      have hne : c ≠ t := (Nat.ne_of_lt (Program.pred_lt hc)).symm
      have hs := (ha.modify_of_ne (f := f) hne).2
      simp only [Taker.advance]
      exact hm.trans (.modify { decided := by simp [hs, hst] })
  | handle => exact hm
  | observer => exact hm

/-- Every allowed operation lets the history grow. -/
theorem Op.grows (h : Life prog m) {o : Op V P} (hp : o.Pre prog i m) : m.Grows (o.exec m) := by
  by_cases hm : o.moves = true
  · exact .moved (Op.moved hp hm)
  cases o <;> simp only [Op.moves, not_true_eq_false] at hm <;> simp only [Op.exec]
  case invoke t v =>
    obtain ⟨-, st, ha, hst⟩ := hp
    have hd : (m.cell t).stage.decided = false := by
      rw [ha.2]
      rcases hst with rfl | ⟨r, rfl⟩ <;> rfl
    exact .modify { invoked := List.prefix_append _ _, decided := by simp [hd] }
  case bodyReturns t r =>
    obtain ⟨v, ha, -⟩ := hp
    have hc := h.cell t
    rw [CellOk, ha.2] at hc
    exact .modify { finish := by simp [hc.2.2.1], decided := by simp [ha.2, Stage.decided] }
  case futurePanics t =>
    obtain ⟨v, q, ha, -⟩ := hp
    have hc := h.cell t
    rw [CellOk, ha.2] at hc
    exact .modify { finish := by simp [hc.2.2.1], decided := by simp [ha.2, Stage.decided] }
  case writeBuffer t r => exact .modify { decided := by simp [hp.2, Stage.decided] }
  case writeReady => exact .modify { state := by simp, decided := by simp [Stage.decided] }
  case replace t st f =>
    obtain ⟨ha, hs⟩ := hp
    have hfin : (m.cell t).finish = none := by
      rcases ha with ha | ⟨r, ha⟩
      · exact (h.unstarted ha (.inl rfl)).2.2.1
      · exact (h.unstarted ha (.inr rfl)).2.2.1
    refine .modify { state := fun _ he => ?_, finish := by simp [hfin],
                     decided := by simp [Stage.decided] }
    simp only at he
    simp [he, Skips] at hs
  case silent => exact hp.elim
  case waitSignal t k =>
    exact Taker.advance_grows { takes := List.prefix_append _ _ } hp.2 rfl
  case takeResult t k r =>
    exact Taker.advance_grows { result := by simp [hp.2.1] } (.inr hp.2.2.1) rfl
  case takeBuffer t k v =>
    exact Taker.advance_grows { result := by simp [hp.2.1] } (.inr hp.2.2.1) rfl
  case cancel => exact .modify { state := by simp, cancelled := by simp }
  case signalSem t s =>
    refine ⟨fun _ => .refl _, fun s' hs' => ?_⟩
    by_cases he : s' = s
    · simp [he]
    · simpa [he] using hs'
  case wakeSignal =>
    exact .modify { wakes := List.prefix_append _ _, decided := by simp [Stage.decided] }
  case wakeQueue t home site =>
    have hg : m.Grows (m.modify t fun c =>
        { c with queueWakes := c.queueWakes ++ [site], owner := .gone, stage := .settled site }) :=
      .modify { queueWakes := List.prefix_append _ _, decided := by simp [Stage.decided] }
    exact ⟨hg.cell, hg.sem⟩
  case sendWorker w x =>
    have hg : m.Grows (m.modify x.id fun c =>
        { c with owner := .workerChannel w, stage := .passed }) :=
      .modify { decided := by simp [hp.2.1.2, Stage.decided] }
    exact ⟨hg.cell, hg.sem⟩
  case replacePanicked t q w =>
    have hg : m.Grows (m.modify t fun c => { c with state := .panicked q, stage := .finished }) :=
      .modify { state := by simp, decided := by simp [Stage.decided] }
    exact ⟨hg.cell, hg.sem⟩
  case foundCancelled t w =>
    obtain ⟨-, ⟨v, ha⟩, -⟩ := hp
    have hc := h.cell t
    rw [CellOk, ha.2] at hc
    have hg : m.Grows (m.modify t fun c =>
        { c with finish := some .cancelled, stage := .finished }) :=
      .modify { finish := by simp [hc.2.2.1], decided := by simp [Stage.decided] }
    exact ⟨hg.cell, hg.sem⟩
  case pass t => exact .modify { decided := by simp [hp.1.2, Stage.decided] }

end MVSync
