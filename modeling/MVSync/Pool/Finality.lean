import MVSync.Pool.Cancel

/-!
# Outcomes that are final

The state of a task is overwritten without a look at what it holds: by the
future of the task, by the thread that skips or catches it, and by every
`cancel`.  `Op.writes` is what an operation writes.

The table of stages leaves two ways to change an outcome.  A `cancel` comes
after the task has returned or panicked (`Pool.LateCancel`), or a task that was
cancelled while its body ran returns or panics all the same
(`Pool.LateFinish`).

Both come from a `cancel` at the wrong time.  A thread asks for a `cancel` before it
hands the task on (`is_cancelled`) and when its body is pending.  Once the future has
returned or panicked, or the panic of the predecessor was read, nobody asks again
(`Pool.Concluding`).  So every outcome is final when no task is cancelled from then
on, and none that was cancelled gets there (`Pool.InTime`).
-/

namespace MVSync

open Concurrency Pool

variable {V P : Type} {cfg : Specs} {prog : Program V P} {m : Shared V P} {i : Tid} {t : TaskId}

/-- `TaskHandle::is_done`. -/
def Shared.handleIsDone (m : Shared V P) (t : TaskId) : Bool := (m.cell t).state != .pending

/-- The result of a wait that finds a state. -/
def TaskState.Reports : TaskState P → TaskResult V P → Prop
  | .ready, .returned _ => True
  | .panicked _, .panicked _ => True
  | .cancelled, .cancelled => True
  | _, _ => False

/-! ## What is written to a state -/

/-- The state that an operation writes to `t`. -/
def Op.writes (t : TaskId) : Op V P → Option (TaskState P)
  | .writeReady u => if u = t then some .ready else none
  | .replace u st _ => if u = t then some st else none
  | .replacePanicked u q _ => if u = t then some (.panicked q) else none
  | .cancel u => if u = t then some .cancelled else none
  | _ => none

/-- A state holds what was written to it last. -/
theorem Op.state_cases (o : Op V P) (m : Shared V P) (t : TaskId) :
    ((o.exec m).cell t).state = (m.cell t).state ∨
      o.writes t = some ((o.exec m).cell t).state := by
  rcases (Op.cellStep o m t).state with h | rfl | rfl | ⟨st, f, rfl⟩ | ⟨q, w, rfl⟩
  · exact .inl h
  all_goals exact .inr (by simp [Op.writes, Op.exec])

theorem Op.state_eq_of_writes {o : Op V P} {st : TaskState P} (h : o.writes t = some st) :
    ((o.exec m).cell t).state = st := by
  cases o <;> simp only [Op.writes, reduceCtorEq, Option.ite_none_right_eq_some] at h
  all_goals
    obtain ⟨rfl, he⟩ := h
    simpa [Op.exec] using he

/-- What a thread writes to a state, `cancel` apart, is to that of a task that it
has. -/
theorem Op.Pre.at_of_writes {o : Op V P} (hp : o.Pre prog i m) {st : TaskState P}
    (h : o.writes t = some st) : o = .cancel t ∨ ∃ stage, m.At i t stage := by
  cases o <;> simp only [Op.writes, reduceCtorEq, Option.ite_none_right_eq_some] at h
  all_goals obtain ⟨rfl, -⟩ := h
  case cancel => exact .inl rfl
  case writeReady => exact .inr ⟨_, hp⟩
  case replace =>
    rcases hp.1 with hat | ⟨r, hat⟩
    · exact .inr ⟨_, hat⟩
    · exact .inr ⟨_, hat⟩
  case replacePanicked => exact .inr ⟨_, hp.2⟩

/-- Nobody writes `Pending`. -/
theorem Op.Pre.writes_ne_pending {o : Op V P} (hp : o.Pre prog i m) {st : TaskState P}
    (h : o.writes t = some st) : st ≠ .pending := by
  cases o <;> simp only [Op.writes, reduceCtorEq, Option.ite_none_right_eq_some] at h
  all_goals
    obtain ⟨rfl, he⟩ := h
    obtain rfl := Option.some.inj he
  case replace =>
    rintro rfl
    exact hp.2
  all_goals simp

/-- Only a `cancel` writes to the state of a task that has finished. -/
theorem Op.Pre.open_of_writes (hl : Life prog m) {o : Op V P} (hp : o.Pre prog i m)
    {st : TaskState P} (h : o.writes t = some st) :
    o = .cancel t ∨ (m.cell t).Open ∧ (m.cell t).stage.decided = false := by
  have hc := hl.cell t
  cases o <;> simp only [Op.writes, reduceCtorEq, Option.ite_none_right_eq_some] at h
  all_goals obtain ⟨rfl, -⟩ := h
  case cancel => exact .inl rfl
  case writeReady =>
    rw [CellOk, hp.2] at hc
    exact .inr ⟨hc.1, by simp [hp.2, Stage.decided]⟩
  case replace =>
    rcases hp.1 with ha | ⟨r, ha⟩
    · exact .inr ⟨(hl.unstarted ha (.inl rfl)).1, by simp [ha.2, Stage.decided]⟩
    · exact .inr ⟨(hl.unstarted ha (.inr rfl)).1, by simp [ha.2, Stage.decided]⟩
  case replacePanicked =>
    rw [CellOk, hp.2.2] at hc
    exact .inr ⟨hc.1, by simp [hp.2.2, Stage.decided]⟩

namespace Pool

variable {s s' : (pool cfg prog).State} {a : (pool cfg prog).Action}

/-- The step performs an operation. -/
def Performs (s : (pool cfg prog).State) (a : (pool cfg prog).Action) (o : Op V P) : Prop :=
  ∃ q, s.next a = some (q, o)

/-- A `cancel` of a task that has returned or panicked. -/
def LateCancel (s : (pool cfg prog).State) (a : (pool cfg prog).Action) (t : TaskId) : Prop :=
  Performs s a (.cancel t) ∧
    ((s.mem.cell t).state = .ready ∨ ∃ q, (s.mem.cell t).state = .panicked q)

/-- A task that was cancelled returns or panics: `Ready` or `Panicked` is
written over `Cancelled`. -/
def LateFinish (s : (pool cfg prog).State) (a : (pool cfg prog).Action) (t : TaskId) : Prop :=
  (s.mem.cell t).state = .cancelled ∧
    ∃ o st, Performs s a o ∧ o.writes t = some st ∧ (st = .ready ∨ ∃ q, st = .panicked q)

theorem Performs.unique {o o' : Op V P} (h : Performs s a o) (h' : Performs s a o') : o = o' := by
  obtain ⟨q, hq⟩ := h
  obtain ⟨q', hq'⟩ := h'
  exact (Prod.mk.inj (Option.some.inj (hq.symm.trans hq'))).2

/-- What one step of the pool does to the memory. -/
theorem mem_of_step (hs : s.step a = some s') : ∃ o, Performs s a o ∧ s'.mem = o.exec s.mem := by
  obtain ⟨q, o, hn, rfl⟩ := System.State.step_cases hs
  exact ⟨o, ⟨q, hn⟩, rfl⟩

theorem Reachable.performs (h : Reachable s) {o : Op V P} (ho : Performs s a o) :
    o.Pre prog a.tid s.mem :=
  ho.elim fun _ hn => h.pre hn

/-- The two ways to change an outcome. -/
theorem Reachable.state_eq_iff (h : Reachable s) (hd : (s.mem.cell t).state ≠ .pending)
    (hs : s.step a = some s') :
    (s'.mem.cell t).state = (s.mem.cell t).state ↔ ¬LateCancel s a t ∧ ¬LateFinish s a t := by
  obtain ⟨o, ho, hmem⟩ := mem_of_step hs
  rw [hmem]
  constructor
  · intro heq
    refine ⟨?_, ?_⟩
    · rintro ⟨hc, hst⟩
      obtain rfl := ho.unique hc
      have hnew : ((Op.exec (.cancel t) s.mem).cell t).state = .cancelled := by simp [Op.exec]
      rw [heq] at hnew
      rcases hst with hst | ⟨q, hst⟩
      · simp [hst] at hnew
      · simp [hst] at hnew
    · rintro ⟨hst, o', st, ho', hw, hne⟩
      obtain rfl := ho.unique ho'
      have hnew := Op.state_eq_of_writes (m := s.mem) hw
      rw [heq, hst] at hnew
      subst hnew
      simp at hne
  · rintro ⟨hc, hf⟩
    by_contra hne
    have hw := (Op.state_cases o s.mem t).resolve_left hne
    have hgrow := ((Op.grows h.inv.life (h.performs ho)).cell t).state hd
    rcases (h.performs ho).open_of_writes h.inv.life hw with rfl | ⟨hopen, -⟩
    · refine hc ⟨ho, ?_⟩
      cases hst : (s.mem.cell t).state with
      | pending => exact absurd hst hd
      | ready => exact .inl rfl
      | panicked q => exact .inr ⟨q, rfl⟩
      | cancelled => exact absurd (by simp [Op.exec, hst]) hne
    · have hst : (s.mem.cell t).state = .cancelled := by
        rcases hopen.state with ⟨hst, -⟩ | ⟨hst, -⟩
        · exact absurd hst hd
        · exact hst
      refine hf ⟨hst, o, _, ho, hw, ?_⟩
      cases hst' : ((o.exec s.mem).cell t).state with
      | pending => exact absurd hst' hgrow
      | ready => exact .inl rfl
      | panicked q => exact .inr ⟨q, rfl⟩
      | cancelled => exact absurd (hst'.trans hst.symm) hne

/-- A finished task that is cancelled stays so. -/
theorem Reachable.cancelled_of_step (h : Reachable s) (hd : (s.mem.cell t).stage.decided = true)
    (hc : (s.mem.cell t).state = .cancelled) (hs : s.step a = some s') :
    (s'.mem.cell t).state = .cancelled := by
  rw [← hc]
  refine (h.state_eq_iff (by simp [hc]) hs).mpr ⟨?_, ?_⟩
  · rintro ⟨-, hst | ⟨q, hst⟩⟩
    · simp [hst] at hc
    · simp [hst] at hc
  · rintro ⟨-, o, st, ho, hw, hne⟩
    rcases (h.performs ho).open_of_writes h.inv.life hw with rfl | ⟨-, hopen⟩
    · obtain rfl : TaskState.cancelled = st := by simpa [Op.writes] using hw
      simp at hne
    · simp [hd] at hopen

end Pool

/-! ## Where a task ends -/

/-- The poll has an outcome in hand: the body returned, or the predecessor had
panicked. -/
def PollPc.concludes : PollPc V P → Bool
  | .writeBuffer _ | .writeReady => true
  | .replace _ st _ => st != .cancelled
  | _ => false

/-- The task at hand, if the dispatcher has read the panic of its predecessor. -/
def DispatcherPc.concludes : DispatcherPc P → Option TaskId
  | .replace x st _ _ _ _ => if st != .cancelled then some x.id else none
  | _ => none

/-- The task at hand, if the worker has its outcome or its panic. -/
def WorkerPc.concludes : WorkerPc V P → Option TaskId
  | .poll x pc _ _ => if pc.concludes then some x.id else none
  | .errArm x _ _ _ => some x.id
  | _ => none

/-- The task at hand, if the caller has its outcome.  A panic that unwinds is
none. -/
def CallerPc.concludes : CallerPc V P → Option TaskId
  | .poll x pc _ => if pc.concludes then some x.id else none
  | .replace x st _ _ _ => if st != .cancelled then some x.id else none
  | _ => none

/-- The task whose outcome, `Ready` or `Panicked`, the thread is about to write. -/
def Tid.concludes : (i : Tid) → Tid.Pc V P i → Option TaskId
  | .dispatcher, p => DispatcherPc.concludes p
  | .worker _, p => WorkerPc.concludes p
  | .caller _, p => CallerPc.concludes p

section

variable {x : Task} {pends : Bool} {op : Op V P} {st : TaskState P}

theorem bne_cancelled {st : TaskState P} : (st != .cancelled) = true ↔ st ≠ .cancelled := by
  simp [bne, ← Bool.not_eq_true]

theorem Fut.entry_concludes (f : Fut V) : (f.entry : PollPc V P).concludes = false := by
  unfold Fut.entry
  split <;> rfl

/-- A poll comes to an outcome by a step that writes to no state. -/
theorem pollNext_concludes {p p' : PollPc V P}
    (h : pollNext prog x pends p m = some (.more p', op)) (hp : p'.concludes = true) (u : TaskId) :
    op.writes u = none := by
  cases pollNext_step h with
  | returns | writeBuffer | predPanicked => rfl
  | _ => cases hp

theorem pollNext_panic_writes {p : PollPc V P} {q : Payload P}
    (h : pollNext prog x pends p m = some (.err q, op)) (u : TaskId) : op.writes u = none := by
  cases pollNext_step h <;> rfl

/-- The dispatcher too, -/
theorem dispatcherNext_concludes {p p' : DispatcherPc P}
    (h : dispatcherNext cfg p m = some (p', op)) (hp : p'.concludes = some t) (u : TaskId) :
    op.writes u = none := by
  cases dispatcherNext_step h with
  | getPanic => rfl
  | predCancelled | selfCancelled => cases hp
  | _ => cases hp

/-- and the workers, -/
theorem workerNext_concludes {w : WorkerId} {p p' : WorkerPc V P}
    (h : workerNext prog w pends p m = some (p', op)) (hp : p'.concludes = some t) (u : TaskId) :
    op.writes u = none := by
  cases workerNext_step h with
  | next => simp [WorkerPc.concludes, Fut.entry_concludes] at hp
  | more hpoll =>
      obtain ⟨hc, -⟩ := Option.ite_none_right_eq_some.mp hp
      exact pollNext_concludes hpoll hc u
  | err hpoll => exact pollNext_panic_writes hpoll u
  | _ => cases hp

/-- and the callers. -/
theorem callerNext_concludes {e : CallerId} {c : CallerInput} {p p' : CallerPc V P}
    (h : callerNext cfg prog e c p m = some (p', op)) (hp : p'.concludes = some t) (u : TaskId) :
    op.writes u = none := by
  cases callerNext_step h with
  | getPanic => rfl
  | more hpoll =>
      obtain ⟨hc, -⟩ := Option.ite_none_right_eq_some.mp hp
      exact pollNext_concludes hpoll hc u
  | @wake _ k | @polled _ k => cases k <;> cases hp
  | _ => cases hp

/-- What writes another outcome than `Cancelled` had it in hand. -/
theorem pollNext_writes {p : PollPc V P} {r : PollResult V P}
    (h : pollNext prog x pends p m = some (r, op)) (hw : op.writes t = some st)
    (hst : st ≠ .cancelled) : x.id = t ∧ p.concludes = true := by
  cases pollNext_step h with
  | writeReady =>
      obtain ⟨rfl, -⟩ := Option.ite_none_right_eq_some.mp hw
      exact ⟨rfl, rfl⟩
  | replace =>
      obtain ⟨rfl, he⟩ := Option.ite_none_right_eq_some.mp hw
      obtain rfl := Option.some.inj he
      exact ⟨rfl, bne_cancelled.mpr hst⟩
  | _ => cases hw

/-- A poll that has an outcome in hand writes it, when the value is in the buffer. -/
theorem PollPc.ends_of_concludes (prog : Program V P) (x : Task) {p : PollPc V P}
    (hp : p.concludes = true) (hr : ∀ r, p ≠ .writeBuffer r) :
    ∃ op st, (∀ pends m, pollNext prog x pends p m = some (.ready, op)) ∧
      op.writes x.id = some st ∧ st ≠ .cancelled := by
  cases p with
  | writeBuffer r => exact absurd rfl (hr r)
  | writeReady => exact ⟨.writeReady x.id, .ready, fun _ _ => rfl, if_pos rfl, by simp⟩
  | replace r st f =>
      exact ⟨.replace x.id st f, st, fun _ _ => rfl, if_pos rfl, bne_cancelled.mp hp⟩
  | _ => cases hp

theorem settleNext_writes {site : Site} {sp : SettlePc} {sp' : Option SettlePc}
    (h : settleNext x site sp = (sp', op)) : op.writes t = none := by
  unfold settleNext at h
  split at h <;> cases h <;> rfl

theorem dispatcherNext_writes {p p' : DispatcherPc P} (h : dispatcherNext cfg p m = some (p', op))
    (hw : op.writes t = some st) (hst : st ≠ .cancelled) : p.concludes = some t := by
  cases dispatcherNext_step h with
  | replace =>
      obtain ⟨rfl, he⟩ := Option.ite_none_right_eq_some.mp hw
      obtain rfl := Option.some.inj he
      exact if_pos (bne_cancelled.mpr hst)
  | settle hs | settled hs => simp [settleNext_writes hs] at hw
  | _ => cases hw

theorem workerNext_writes {w : WorkerId} {p p' : WorkerPc V P}
    (h : workerNext prog w pends p m = some (p', op)) (hw : op.writes t = some st)
    (hst : st ≠ .cancelled) : p.concludes = some t := by
  cases workerNext_step h with
  | more hp | pending hp | err hp | ready hp =>
      obtain ⟨rfl, hc⟩ := pollNext_writes hp hw hst
      exact if_pos hc
  | errArm =>
      obtain ⟨rfl, -⟩ := Option.ite_none_right_eq_some.mp hw
      rfl
  | settle hs | settled hs => simp [settleNext_writes hs] at hw
  | _ => cases hw

theorem callerNext_writes {e : CallerId} {c : CallerInput} {p p' : CallerPc V P}
    (h : callerNext cfg prog e c p m = some (p', op)) (hw : op.writes t = some st)
    (hst : st ≠ .cancelled) : p.concludes = some t := by
  cases callerNext_step h with
  | cancel =>
      obtain ⟨-, he⟩ := Option.ite_none_right_eq_some.mp hw
      exact absurd (Option.some.inj he).symm hst
  | replace =>
      obtain ⟨rfl, he⟩ := Option.ite_none_right_eq_some.mp hw
      obtain rfl := Option.some.inj he
      exact if_pos (bne_cancelled.mpr hst)
  | more hp | pending hp | err hp | ready hp =>
      obtain ⟨rfl, hc⟩ := pollNext_writes hp hw hst
      exact if_pos hc
  | settle hs | settled hs => simp [settleNext_writes hs] at hw
  | _ => cases hw

end

namespace Pool

variable {s s' : (pool cfg prog).State} {a : (pool cfg prog).Action}

/-- A thread is about to write the outcome of `t`, and does not ask any more whether it
was cancelled. -/
def Concluding (s : (pool cfg prog).State) (t : TaskId) : Prop :=
  ∃ i, Tid.concludes i (s.pc i) = some t

/-- A `cancel` of a task that has ended: it has returned or panicked, or that is about
to be written. -/
def CancelsEnded (s : (pool cfg prog).State) (a : (pool cfg prog).Action) (t : TaskId) : Prop :=
  Performs s a (.cancel t) ∧ ((s.mem.cell t).state = .ready ∨
    (∃ q, (s.mem.cell t).state = .panicked q) ∨ Concluding s t)

/-- A task that was cancelled, after it was last asked for that, ends: its future
returns or panics, or the panic of its predecessor is read. -/
def EndsCancelled (s : (pool cfg prog).State) (a : (pool cfg prog).Action) (t : TaskId) : Prop :=
  (s.mem.cell t).state = .cancelled ∧ ¬Concluding s t ∧
    ∃ q o, s.next a = some (q, o) ∧ Tid.concludes a.tid q = some t

/-- Every `cancel` comes before the end of its task, and in time to be seen. -/
def InTime (s : (pool cfg prog).State) (a : (pool cfg prog).Action) : Prop :=
  ∀ t, ¬CancelsEnded s a t ∧ ¬EndsCancelled s a t

/-- The thread that is about to write an outcome has the task. -/
theorem Reachable.owner_of_concludes (h : Reachable s) {i : Tid}
    (hi : Tid.concludes i (s.pc i) = some t) : (s.mem.cell t).owner = .thread i := by
  cases i with
  | dispatcher =>
      have hloc := h.dispatcher
      generalize hp : Pool.dispatcher s = p at hloc
      rw [show s.pc .dispatcher = p from hp] at hi
      cases p with
      | replace =>
          obtain ⟨-, he⟩ := Option.ite_none_right_eq_some.mp hi
          obtain rfl := Option.some.inj he
          exact hloc.tasks.head_owner
      | _ => cases hi
  | worker w =>
      have hloc := h.worker w
      generalize hp : Pool.worker s w = p at hloc
      rw [show s.pc (.worker w) = p from hp] at hi
      cases p with
      | poll =>
          obtain ⟨-, he⟩ := Option.ite_none_right_eq_some.mp hi
          obtain rfl := Option.some.inj he
          exact hloc.tasks.head_owner
      | errArm =>
          obtain rfl := Option.some.inj hi
          exact hloc.tasks.head_owner
      | _ => cases hi
  | caller e =>
      have hloc := h.caller e
      generalize hp : Pool.caller s e = p at hloc
      rw [show s.pc (.caller e) = p from hp] at hi
      cases p with
      | poll | replace =>
          obtain ⟨-, he⟩ := Option.ite_none_right_eq_some.mp hi
          obtain rfl := Option.some.inj he
          exact (hloc.tasks _ rfl).head_owner
      | _ => cases hi

/-- A step to an outcome writes to no state. -/
theorem writes_of_concludes {q : Tid.Pc V P a.tid} {o : Op V P} (hn : s.next a = some (q, o))
    (hq : Tid.concludes a.tid q = some t) (u : TaskId) : o.writes u = none := by
  obtain ⟨i, c⟩ := a
  cases i with
  | dispatcher => exact dispatcherNext_concludes hn hq u
  | worker w => exact workerNext_concludes hn hq u
  | caller e => exact callerNext_concludes hn hq u

/-- What writes an outcome had it in hand. -/
theorem concludes_of_writes {q : Tid.Pc V P a.tid} {o : Op V P} {st : TaskState P}
    (hn : s.next a = some (q, o)) (hw : o.writes t = some st) (hst : st ≠ .cancelled) :
    Tid.concludes a.tid (s.pc a.tid) = some t := by
  obtain ⟨i, c⟩ := a
  cases i with
  | dispatcher => exact dispatcherNext_writes hn hw hst
  | worker w => exact workerNext_writes hn hw hst
  | caller e => exact callerNext_writes hn hw hst

/-! ## Runs -/

/-- The states that the pool reaches from `s₀` when every `cancel` comes in time. -/
abbrev ReachInTime (s₀ s : (pool cfg prog).State) : Prop :=
  System.ReachVia (fun s a _ => InTime s a) s₀ s

/-- When every `cancel` comes in time, what is about to be written replaces no
`Cancelled`. -/
theorem not_cancelled_of_concluding (h : ReachInTime (poolInit cfg prog) s) (hc : Concluding s t) :
    (s.mem.cell t).state ≠ .cancelled := by
  refine h.invariant (I := fun s => Concluding s t → (s.mem.cell t).state ≠ .cancelled)
    (fun _ hs => by cases hs) ?_ hc
  intro s s' a hr hi hs ha ⟨i, hci⟩
  have hr : Reachable s := hr.reach
  obtain ⟨q, o, hn, rfl⟩ := System.State.step_cases hs
  have ho : Performs s a o := ⟨q, hn⟩
  by_cases hia : i = a.tid
  · -- the thread gets to the outcome, or was there before
    subst hia
    rw [System.State.move_pc_self] at hci
    have hkeep : ((o.exec s.mem).cell t).state = (s.mem.cell t).state :=
      (Op.state_cases o s.mem t).resolve_right (by simp [writes_of_concludes hn hci t])
    show ((o.exec s.mem).cell t).state ≠ .cancelled
    rw [hkeep]
    by_cases hcon : Concluding s t
    · exact hi hcon
    · exact fun hst => (ha t).2 ⟨hst, hcon, q, o, hn, hci⟩
  · rw [System.State.move_pc_of_ne s q o hia] at hci
    have hcon : Concluding s t := ⟨i, hci⟩
    intro (hst : ((o.exec s.mem).cell t).state = .cancelled)
    have hw := (Op.state_cases o s.mem t).resolve_left fun he => hi hcon (he.symm.trans hst)
    rcases (hr.performs ho).at_of_writes hw with rfl | ⟨stage, hat⟩
    · exact (ha t).1 ⟨ho, .inr (.inr hcon)⟩
    · -- the task is with the thread that is about to write its outcome
      have hown := hr.owner_of_concludes hci
      rw [hat.1] at hown
      exact hia (Owner.thread.inj hown).symm

/-- When every `cancel` comes in time, no step changes an outcome. -/
theorem ReachInTime.keeps (h : ReachInTime (poolInit cfg prog) s) (ha : InTime s a) (t : TaskId) :
    ¬LateCancel s a t ∧ ¬LateFinish s a t := by
  refine ⟨fun ⟨ho, hst⟩ => (ha t).1 ⟨ho, hst.imp_right .inl⟩, ?_⟩
  rintro ⟨hst, o, st, ⟨q, hn⟩, hw, hne⟩
  refine not_cancelled_of_concluding h ⟨a.tid, concludes_of_writes hn hw ?_⟩ hst
  rintro rfl
  simp at hne

end Pool

/-- The state of a task whose outcome is written says how the task finished. -/
def FinishKept (m : Shared V P) (t : TaskId) : Prop :=
  (m.cell t).stage.decided = true →
    ((m.cell t).finish = some .returned → (m.cell t).state = .ready) ∧
      ((m.cell t).finish = some .panicked → ∃ q, (m.cell t).state = .panicked q)

/-- An outcome is written together with the state that says it. -/
theorem Op.Pre.finishKept (hl : Life prog m) {o : Op V P} (hp : o.Pre prog i m)
    (hd : (m.cell t).stage.decided = false) : FinishKept (o.exec m) t := by
  intro hd'
  have hc := hl.cell t
  rcases (Op.cellStep o m t).stage with hs | hs | ⟨w, x, rfl, rfl⟩ | ⟨home, site, rfl⟩
  · simp [hs, hd] at hd'
  · cases o
    case writeReady u =>
      obtain ⟨rfl, -⟩ := Prod.mk.inj (Option.some.inj hs)
      rw [CellOk, hp.2] at hc
      simp [Op.exec, hc.2.1]
    case replace u st f =>
      obtain ⟨rfl, -⟩ := Prod.mk.inj (Option.some.inj hs)
      have hsk := hp.2
      unfold Skips at hsk
      split at hsk
      · simp [Op.exec]
      · simp [Op.exec]
      · exact hsk.elim
    case replacePanicked u q w =>
      obtain ⟨rfl, -⟩ := Prod.mk.inj (Option.some.inj hs)
      rw [CellOk, hp.2.2] at hc
      simp [Op.exec, hc.2.1]
    case foundCancelled u w =>
      obtain ⟨rfl, -⟩ := Prod.mk.inj (Option.some.inj hs)
      simp [Op.exec]
    case silent => exact hp.elim
    case wakeSignal u site =>
      obtain ⟨rfl, -⟩ := Prod.mk.inj (Option.some.inj hs)
      simp [hp.1.2, Stage.decided] at hd
    case waitSignal u k =>
      cases k <;> simp only [Op.moveTo, Option.some.injEq, Prod.mk.injEq, reduceCtorEq] at hs
      simp [← hs.2, Stage.decided] at hd'
    case takeResult u k r =>
      cases k <;> simp only [Op.moveTo, Option.some.injEq, Prod.mk.injEq, reduceCtorEq] at hs
      simp [← hs.2, Stage.decided] at hd'
    case takeBuffer u k v =>
      cases k <;> simp only [Op.moveTo, Option.some.injEq, Prod.mk.injEq, reduceCtorEq] at hs
      simp [← hs.2, Stage.decided] at hd'
    all_goals
      simp only [Op.moveTo, Option.some.injEq, Prod.mk.injEq, reduceCtorEq] at hs
    all_goals simp [← hs.2, Stage.decided] at hd'
  · simp [Op.exec, Stage.decided] at hd'
  · simp [hp.1.2, Stage.decided] at hd

/-- Two results that one state reports are the same. -/
theorem Life.result_unique {m m' : Shared V P} (h : Life prog m) (h' : Life prog m')
    {st : TaskState P} {r r' : TaskResult V P} (hr : (m.cell t).result = some r)
    (hr' : (m'.cell t).result = some r') (hst : st.Reports r) (hst' : st.Reports r') : r = r' := by
  obtain ⟨hok, -⟩ := (h.cell t).resultOk hr
  obtain ⟨hok', -⟩ := (h'.cell t).resultOk hr'
  cases r <;> cases r' <;> cases st <;> first | exact hst.elim | exact hst'.elim | skip
  case returned.returned v v' =>
    have he := hok.1.unique hok'.1
    rw [Except.ok.inj he]
  case panicked.panicked q q' => rw [hok.1, hok'.1]
  case cancelled.cancelled => rfl

namespace Pool

variable {s s' : (pool cfg prog).State} {a : (pool cfg prog).Action}

/-- When every `cancel` comes in time, the states say how the tasks finished. -/
theorem finishKept (h : ReachInTime (poolInit cfg prog) s) (t : TaskId) :
    FinishKept s.mem t := by
  refine h.invariant (I := fun s => FinishKept s.mem t) (fun hd => by cases hd) ?_
  intro s s' a h' hi hs hk
  have hr : Reachable s := h'.reach
  obtain ⟨o, ho, hmem⟩ := mem_of_step hs
  cases hd : (s.mem.cell t).stage.decided with
  | false =>
      rw [hmem]
      exact (hr.performs ho).finishKept hr.inv.life hd
  | true =>
      obtain ⟨f, hf, hdec⟩ := (hr.inv.life.cell t).decided_of_stage hd
      have hst := (hr.state_eq_iff hdec.state_ne_pending hs).mpr (ReachInTime.keeps h' hk t)
      have hf' := ((hr.grows hs).cell t).finish f hf
      intro _
      rw [hst, hf', ← hf]
      exact hi hd

/-- In such a run, a wait reports the state. -/
theorem reports (h : ReachInTime (poolInit cfg prog) s) {r : TaskResult V P}
    (hr : (s.mem.cell t).result = some r) : (s.mem.cell t).state.Reports r := by
  have hreach : Reachable s := h.reach
  have hc := hreach.inv.life.cell t
  obtain ⟨hok, hw⟩ := hc.resultOk hr
  obtain ⟨hret, hpan⟩ := finishKept h t (hc.stage_decided hw)
  cases r with
  | returned v =>
      rw [hret hok.2]
      trivial
  | panicked q =>
      obtain ⟨q', hq'⟩ := hpan hok.2
      rw [hq']
      trivial
  | cancelled =>
      rw [show (s.mem.cell t).state = .cancelled from hok]
      trivial

/-- A state that left `Pending` stays as it is in such a run. -/
theorem ReachInTime.state_eq (h : ReachInTime (poolInit cfg prog) s)
    (hd : s.mem.handleIsDone t = true) (hr : ReachInTime s s') :
    (s'.mem.cell t).state = (s.mem.cell t).state := by
  have hd : (s.mem.cell t).state ≠ .pending := TaskState.bne_pending.mp hd
  induction hr with
  | init => rfl
  | step a hr hs ha ih =>
      rw [← ih] at hd ⊢
      have h' := h.trans hr
      exact (Reachable.state_eq_iff h'.reach hd hs).mpr (ReachInTime.keeps h' ha t)

theorem next_dispatch {p q : DispatcherPc P} {o : Op V P} (hp : dispatcher s = p)
    (hn : dispatcherNext cfg p s.mem = some (q, o)) : s.next dispatch = some (q, o) :=
  show dispatcherNext cfg (dispatcher s) s.mem = some (q, o) from hp ▸ hn

theorem next_work {w : WorkerId} {b : Bool} {p q : WorkerPc V P} {o : Op V P}
    (hp : worker s w = p) (hn : workerNext prog w b p s.mem = some (q, o)) :
    s.next (work w b) = some (q, o) :=
  show workerNext prog w b (worker s w) s.mem = some (q, o) from hp ▸ hn

theorem next_call {e : CallerId} {c : CallerInput} {p q : CallerPc V P} {o : Op V P}
    (hp : caller s e = p) (hn : callerNext cfg prog e c p s.mem = some (q, o)) :
    s.next (call e c) = some (q, o) :=
  show callerNext cfg prog e c (caller s e) s.mem = some (q, o) from hp ▸ hn

/-- The pool can get to a state where `t` is done, and not `Cancelled`. -/
def Overwritten (s : (pool cfg prog).State) (t : TaskId) : Prop :=
  ∃ s', System.Reach s s' ∧ s'.mem.handleIsDone t = true ∧ (s'.mem.cell t).state ≠ .cancelled

/-- A write of another outcome than `Cancelled` can take place. -/
theorem Overwritten.of_writes (h : Reachable s) {q : Tid.Pc V P a.tid} {o : Op V P}
    {st : TaskState P} (hn : s.next a = some (q, o)) (hw : o.writes t = some st)
    (hst : st ≠ .cancelled) : Overwritten s t := by
  have hne : st ≠ .pending := (h.performs ⟨q, hn⟩).writes_ne_pending hw
  have hnew : ((s.move a.tid q o).mem.cell t).state = st := Op.state_eq_of_writes hw
  exact ⟨_, .step a .init (System.State.step_of_next hn) trivial,
    TaskState.bne_pending.mpr (hnew ▸ hne), hnew ▸ hst⟩

theorem Overwritten.of_step (hs : s.step a = some s') (h : Overwritten s' t) : Overwritten s t :=
  h.imp fun _ hr => ⟨.trans (.step a .init hs trivial) hr.1, hr.2⟩

theorem Overwritten.of_dispatcher (h : Reachable s) {p : DispatcherPc P} (hp : dispatcher s = p)
    (hc : p.concludes = some t) : Overwritten s t := by
  cases p with
  | replace x st f site todo remaining =>
      obtain ⟨hst, he⟩ := Option.ite_none_right_eq_some.mp hc
      obtain rfl := Option.some.inj he
      exact .of_writes h (next_dispatch (o := .replace x.id st f) hp rfl) (if_pos rfl)
        (bne_cancelled.mp hst)
  | _ => cases hc

/-- A thread at `place pc` of a task can write the outcome that `pc` has in hand. -/
theorem Overwritten.of_poll (h : Reachable s) {x : Task} {pc : PollPc V P} (b : Bool)
    (place : PollPc V P → Tid.Pc V P a.tid)
    (hpoll : ∀ {s : (pool cfg prog).State} {pc r o}, s.pc a.tid = place pc →
      pollNext prog x b pc s.mem = some (r, o) →
        ∃ q, s.next a = some (q, o) ∧ ∀ pc', r = .more pc' → q = place pc')
    (hp : s.pc a.tid = place pc) (hc : pc.concludes = true) : Overwritten s x.id := by
  have ends : ∀ {s : (pool cfg prog).State} {pc}, Reachable s → s.pc a.tid = place pc →
      pc.concludes = true → (∀ r, pc ≠ .writeBuffer r) → Overwritten s x.id := by
    intro s pc h hp hc hr
    obtain ⟨o, st, hn, hw, hst⟩ := PollPc.ends_of_concludes prog x hc hr
    obtain ⟨q, hq, -⟩ := hpoll hp (hn b s.mem)
    exact .of_writes h hq hw hst
  cases pc with
  | writeBuffer r =>
      -- the value is put into the buffer first
      obtain ⟨q, hq, hplace⟩ := hpoll hp rfl
      obtain rfl := hplace _ rfl
      have hs := System.State.step_of_next hq
      exact .of_step hs (ends (.step _ h hs trivial) (System.State.move_pc_self ..) rfl (by simp))
  | _ => exact ends h hp hc (by simp)

theorem Overwritten.of_worker (h : Reachable s) {w : WorkerId} {p : WorkerPc V P}
    (hp : worker s w = p) (hc : p.concludes = some t) : Overwritten s t := by
  cases p with
  | poll x pc kept todo =>
      obtain ⟨hpc, he⟩ := Option.ite_none_right_eq_some.mp hc
      obtain rfl := Option.some.inj he
      refine .of_poll h (a := work w false) false (WorkerPc.poll x · kept todo) ?_ hp hpc
      intro s pc r o hp hn
      have hnext : s.next (work w false) = workerNext prog w false (.poll x pc kept todo) s.mem :=
        hp ▸ rfl
      rw [hnext, workerNext, hn]
      cases r <;> exact ⟨_, rfl, fun _ hr => by cases hr <;> rfl⟩
  | errArm x q kept todo =>
      obtain rfl := Option.some.inj hc
      have hw : (Op.replacePanicked (V := V) x.id q w).writes x.id = some (.panicked q) :=
        if_pos rfl
      exact .of_writes h (next_work (b := false) hp rfl) hw (by simp)
  | _ => cases hc

theorem Overwritten.of_caller (h : Reachable s) {e : CallerId} {p : CallerPc V P}
    (hp : caller s e = p) (hc : p.concludes = some t) : Overwritten s t := by
  cases p with
  | poll x pc p =>
      obtain ⟨hpc, he⟩ := Option.ite_none_right_eq_some.mp hc
      obtain rfl := Option.some.inj he
      refine .of_poll h (a := call e .proceed) (CallerInput.proceed == .pends)
        (CallerPc.poll x · p) ?_ hp hpc
      intro s pc r o hp hn
      have hnext : s.next (call e .proceed) =
          callerNext cfg prog e .proceed (.poll x pc p) s.mem := hp ▸ rfl
      rw [hnext, callerNext, hn]
      cases r <;> exact ⟨_, rfl, fun _ hr => by cases hr <;> rfl⟩
  | replace x st f site p =>
      obtain ⟨hst, he⟩ := Option.ite_none_right_eq_some.mp hc
      obtain rfl := Option.some.inj he
      exact .of_writes h (next_call (c := .proceed) (o := .replace x.id st f) hp rfl) (if_pos rfl)
        (bne_cancelled.mp hst)
  | _ => cases hc

/-- A thread that has an outcome in hand can write it, whatever the state is then. -/
theorem Concluding.overwritten (h : Reachable s) (hc : Concluding s t) : Overwritten s t := by
  obtain ⟨i, hi⟩ := hc
  cases i with
  | dispatcher => exact .of_dispatcher h rfl hi
  | worker w => exact .of_worker h rfl hi
  | caller e => exact .of_caller h rfl hi

/-- A caller that cancels is at no task. -/
theorem Concluding.cancel (hc : Concluding s t) (ho : Performs s a (.cancel u))
    (hs : s.step a = some s') : Concluding s' t := by
  obtain ⟨i, hi⟩ := hc
  refine ⟨i, ?_⟩
  obtain ⟨q, o, hn, rfl⟩ := System.State.step_cases hs
  by_cases hia : i = a.tid
  · subst hia
    exfalso
    obtain rfl := Performs.unique ho ⟨q, hn⟩
    obtain ⟨i, c⟩ := a
    cases i with
    | dispatcher => cases dispatcherNext_ofCaller hn
    | worker w => cases workerNext_ofCaller hn
    | caller e =>
        generalize hp : caller s e = p
        have hn : callerNext cfg prog e c (caller s e) s.mem = some (q, .cancel u) := hn
        have hi : (caller s e).concludes = some t := hi
        rw [hp] at hn hi
        cases callerNext_step hn with
        | cancel => cases hi
        | more hp | pending hp | err hp | ready hp => cases pollNext_ofFuture hp
        | settle hs | settled hs => cases settleNext_ofFuture hs
  · rwa [System.State.move_pc_of_ne s q o hia]

/-- Finality.  In every run in which each `cancel` comes in time, a state that left
`Pending` never changes, and whatever the pool does, all waits report the one result
that the state says.  A `cancel` that does not is one after which an outcome changes:
in this step, or it has replaced `Pending`, and the thread that is about to write the
outcome can go on and replace it again. -/
theorem final :
    (∀ s : (pool cfg prog).State, ReachInTime (poolInit cfg prog) s →
      ∀ t, s.mem.handleIsDone t = true → ∀ s', ReachInTime s s' →
        (s'.mem.cell t).state = (s.mem.cell t).state ∧
          ∀ r, (s'.mem.cell t).result = some r → (s.mem.cell t).state.Reports r ∧
            ∀ s'', ReachInTime s s'' → ∀ r', (s''.mem.cell t).result = some r' → r' = r) ∧
      ∀ (s s' : (pool cfg prog).State) (a : (pool cfg prog).Action) t, Reachable s →
        s.step a = some s' → CancelsEnded s a t ∨ EndsCancelled s a t →
          s.mem.handleIsDone t = true ∧ (s'.mem.cell t).state ≠ (s.mem.cell t).state ∨
            (s'.mem.cell t).state = .cancelled ∧ Overwritten s' t := by
  refine ⟨fun s h t hd s' hr => ?_, fun s s' a t h hs ha => ?_⟩
  · have hreach : Reachable s := h.reach
    have key : ∀ s'', ReachInTime s s'' → ∀ r, (s''.mem.cell t).result = some r →
        (s.mem.cell t).state.Reports r := by
      intro s'' hr' r hres
      rw [← h.state_eq hd hr']
      exact reports (h.trans hr') hres
    refine ⟨h.state_eq hd hr, fun r hres => ⟨key s' hr r hres, ?_⟩⟩
    intro s'' hr' r' hres'
    have hl : Life prog s'.mem := (Reachable.inv (hreach.trans hr.reach)).life
    have hl' : Life prog s''.mem := (Reachable.inv (hreach.trans hr'.reach)).life
    exact hl'.result_unique hl hres' hres (key s'' hr' r' hres') (key s' hr r hres)
  · rcases ha with ⟨ho, hend⟩ | ⟨hst, -, q, o, hn, hq⟩
    · have hnew : (s'.mem.cell t).state = .cancelled := by
        obtain ⟨o, ho', hmem⟩ := mem_of_step hs
        obtain rfl := ho.unique ho'
        simp [hmem, Op.exec]
      rcases hend with hst | ⟨q, hst⟩ | hc
      · exact .inl ⟨by simp [Shared.handleIsDone, hst], by simp [hnew, hst]⟩
      · exact .inl ⟨by simp [Shared.handleIsDone, hst], by simp [hnew, hst]⟩
      · exact .inr ⟨hnew, (hc.cancel ho hs).overwritten (.step a h hs trivial)⟩
    · have hs' := System.State.step_of_next hn
      obtain rfl := Option.some.inj (hs.symm.trans hs')
      have hc : Concluding (s.move a.tid q o) t := ⟨a.tid, by rwa [System.State.move_pc_self]⟩
      have hkeep : ((o.exec s.mem).cell t).state = (s.mem.cell t).state :=
        (Op.state_cases o s.mem t).resolve_right (by simp [writes_of_concludes hn hq t])
      exact .inr ⟨hkeep.trans hst, hc.overwritten (.step a h hs trivial)⟩

end Pool

/-! ## Two runs -/

/-- No `cancel` of a task that is `Ready` or `Panicked` or at its end, and no end of a
task that is `Cancelled`. -/
def inTime (s : (pool cfg prog).State) (a : (pool cfg prog).Action) : Bool :=
  match s.next a with
  | none => true
  | some (q, o) =>
      (match o with
        | .cancel t =>
            ((s.mem.cell t).state == .pending || (s.mem.cell t).state == .cancelled) &&
              match (s.mem.cell t).owner with
              | .thread i => Tid.concludes i (s.pc i) != some t
              | _ => true
        | _ => true) &&
      match Tid.concludes a.tid q with
      | some t => (s.mem.cell t).state != .cancelled
      | none => true

theorem Pool.inTime_of_test {s : (pool cfg prog).State} {a : (pool cfg prog).Action}
    (hr : Reachable s) (h : inTime s a = true) : InTime s a := by
  intro t
  refine ⟨?_, ?_⟩
  · rintro ⟨⟨q, hn⟩, hend⟩
    simp only [inTime, hn, Bool.and_eq_true, Bool.or_eq_true, TaskState.beq_pending,
      TaskState.beq_cancelled] at h
    obtain ⟨⟨hst, howner⟩, -⟩ := h
    rcases hend with hs | ⟨p, hs⟩ | ⟨i, hi⟩
    · simp [hs] at hst
    · simp [hs] at hst
    · simp [hr.owner_of_concludes hi, hi] at howner
  · rintro ⟨hst, -, q, o, hn, hq⟩
    simp only [inTime, hn, hq, Bool.and_eq_true] at h
    exact bne_cancelled.mp h.2 hst

set_option maxRecDepth 2000

/-- One function, which returns `5`. -/
def single : Program Nat Nat := .chain false 0 fun _ _ => .ok 5

/-- The function was submitted and returned. -/
def returnedRun : (pool Specs.one single).State :=
  (poolInit Specs.one single).after (submits 0 [0] ++ turns 20)

theorem returnedRun_reachable : Reachable returnedRun := .after _ .init

/-- A `cancel` of the function that has returned. -/
def overriddenRun : (pool Specs.one single).State := returnedRun.after [call 1 (.cancel 0)]

/-- The outcome of a function that is done is replaced by a `cancel`. -/
theorem Pool.not_final :
    ¬∀ s : (pool Specs.one single).State, Reachable s → ∀ t, s.mem.handleIsDone t = true →
      ∀ s', System.Reach s s' → (s'.mem.cell t).state = (s.mem.cell t).state := by
  intro h
  have hst := h returnedRun returnedRun_reachable 0 (by decide) overriddenRun (.after _ .init)
  have hready : (returnedRun.mem.cell 0).state = .ready := by decide
  have hcancelled : (overriddenRun.mem.cell 0).state = .cancelled := by decide
  simp [hready, hcancelled] at hst

/-- The function was cancelled before it was submitted, and is settled. -/
def heededRun : (pool Specs.one single).State :=
  (poolInit Specs.one single).after (call 1 (.cancel 0) :: submits 0 [0] ++ turns 20)

/-- A second `cancel`, and a wait on the handle. -/
def heededWait : (pool Specs.one single).State :=
  heededRun.after (call 1 (.cancel 0) :: call 0 (.handleWait 0) ::
    List.replicate 2 (call 0 .proceed))

theorem heededRun_inTime : ReachInTime (poolInit Specs.one single) heededRun :=
  .along .init (fun _ _ _ h => inTime_of_test h.reach) _ (by decide)

theorem heededWait_inTime : ReachInTime heededRun heededWait :=
  .along .init (fun _ _ _ h => inTime_of_test (heededRun_inTime.trans h).reach) _ (by decide)

/-- The wait of a run reports the outcome that was written before it. -/
theorem Pool.final_heededWait :
    (heededWait.mem.cell 0).result = some .cancelled ∧
      (heededRun.mem.cell 0).state.Reports (.cancelled : TaskResult Nat Nat) :=
  have hres : (heededWait.mem.cell 0).result = some .cancelled := by decide
  ⟨hres, ((final.1 heededRun heededRun_inTime 0 (by decide) heededWait
    heededWait_inTime).2 _ hres).1⟩

end MVSync
