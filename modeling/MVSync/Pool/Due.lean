import MVSync.Pool.Dataflow
import MVSync.Pool.Lost

/-!
# When inline submission keeps its task

`run` asks its three tests once, and it has no branch for a task that none of
them lets through.  So it keeps its promise for the tasks that are due when they
are submitted (`Shared.Due`): a task that can be executed, or that is cancelled,
or whose predecessor is cancelled for good.

If every submit call comes when its task is due and no body panics, every task
is accounted for, whatever other callers do (`Pool.Timely`).  For calls that
come one after the other this is exact (`Pool.Sequence`).
-/

namespace MVSync

open Concurrency Pool

variable {V P : Type} {cfg : Specs} {prog : Program V P} {m m' m₀ : Shared V P} {i : Tid}
  {t u : TaskId} {x : Task} {op : Op V P} {e e' : CallerId} {c : CallerInput}

/-! ## Tasks that are called off -/

/-- The caller has found `t` not cancelled, and its future is not over yet. -/
def CallerPc.pastCheck (t : TaskId) : CallerPc V P → Prop
  | .canExecute x _ _ | .newSignal x _ | .poll x _ _ | .block x _ _ => x.id = t
  | _ => False

/-- A caller gets past its check of a task that is not cancelled. -/
theorem callerNext_pastCheck {p p' : CallerPc V P}
    (h : callerNext cfg prog e c p m = some (p', op)) (hp : p'.pastCheck t) :
    p.pastCheck t ∨ (m.cell t).state ≠ .cancelled := by
  cases callerNext_step h with
  | selfNotCancelled hs =>
      obtain rfl := hp
      exact .inr hs
  | signalled | pass | newSignal | more | pending | unblock => exact .inl hp
  | @wake _ k | @polled _ k => cases k <;> exact hp.elim
  | _ => exact hp.elim

/-- A caller writes `Ready` in the poll of the task. -/
theorem callerNext_writesReady {p p' : CallerPc V P}
    (h : callerNext cfg prog e c p m = some (p', .writeReady t)) : p.pastCheck t := by
  cases callerNext_step h with
  | more hp | pending hp | err hp => cases pollNext_step hp
  | ready hp =>
      cases pollNext_step hp with
      | writeReady => rfl
  | settle hs | settled hs =>
      unfold settleNext at hs
      split at hs <;> cases hs

namespace Pool

variable {s s' : (pool cfg prog).State} {a : (pool cfg prog).Action}

/-- The task is cancelled, and no caller runs it. -/
structure CalledOff (s : (pool cfg prog).State) (t : TaskId) : Prop where
  state : (s.mem.cell t).state = .cancelled
  unchecked : ∀ e, ¬(caller s e).pastCheck t

theorem Reachable.owner_of_pastCheck (h : Reachable s) (hp : (Pool.caller s e).pastCheck t) :
    (s.mem.cell t).owner = .thread (.caller e) := by
  have htasks := (h.caller e).tasks
  generalize Pool.caller s e = p at hp htasks
  cases p with
  | canExecute | newSignal | poll | block =>
      obtain rfl := hp
      exact (htasks _ rfl).head_owner
  | _ => exact hp.elim

/-- Nobody writes to the state of a task that is called off but `cancel`. -/
theorem CalledOff.step (hc : cfg.threadCount = 0) (hi : CalledOff s t) (h : Reachable s)
    (hs : s.step a = some s') : CalledOff s' t := by
  have hless := h.threadless hc
  refine ⟨?_, fun e hp => ?_⟩
  · obtain ⟨o, ho, hmem⟩ := mem_of_step hs
    have hpre := h.performs ho
    by_contra hne
    rw [hmem] at hne
    have hw := (Op.state_cases o s.mem t).resolve_left fun he => hne (he.trans hi.state)
    cases o <;> simp only [Op.writes, reduceCtorEq, Option.ite_none_right_eq_some] at hw
    all_goals obtain ⟨rfl, he⟩ := hw
    case cancel => exact hne (Option.some.inj he).symm
    case writeReady =>
      obtain ⟨e, he'⟩ := hless.tid_eq hpre
      obtain ⟨q, hn⟩ := ho
      obtain ⟨i, c⟩ := a
      subst he'
      exact hi.unchecked e (callerNext_writesReady hn)
    case replace u st f =>
      have hskip := hpre.2
      unfold Skips at hskip
      split at hskip
      · exact hless.calm_step h hs _ _ (hmem ▸ (Option.some.inj he).symm)
      · exact hne (Option.some.inj he).symm
      · exact hskip
    case replacePanicked u q w =>
      obtain ⟨e, he'⟩ := hless.tid_eq hpre.2
      simp [hpre.1] at he'
  · rcases step_cases hs with ⟨q, o, rfl, -, rfl⟩ | ⟨w, pends, q, o, rfl, -, rfl⟩ |
      ⟨e', c, q, o, rfl, hn, rfl⟩
    · exact hi.unchecked e (by simpa using hp)
    · exact hi.unchecked e (by simpa using hp)
    · by_cases he : e = e'
      · subst he
        rw [caller_move] at hp
        exact (callerNext_pastCheck hn hp).elim (hi.unchecked e) fun hne => hne hi.state
      · rw [caller_move_of_ne s o he] at hp
        exact hi.unchecked e hp

/-! ## Tasks that are due -/

end Pool

/-- A task that can be executed, or that is cancelled, or whose predecessor is
cancelled and not with another caller, which could still overwrite that. -/
def Shared.Due (m : Shared V P) (x : Task) : Prop :=
  m.canExecute x = true ∨ (m.cell x.id).state = .cancelled ∨
    ∃ p, x.inner.predecessor = some p ∧ (m.cell p).state = .cancelled ∧
      ∀ e, (m.cell p).owner ≠ .thread (.caller e)

/-- A task that can be executed stays so. -/
theorem Shared.Grows.canExecute (hg : m.Grows m') (h : m.canExecute x = true) :
    m'.canExecute x = true := by
  obtain ⟨hs, hp⟩ := Bool.and_eq_true_iff.mp h
  refine Bool.and_eq_true_iff.mpr ⟨List.all_eq_true.mpr fun g hg' => ?_, ?_⟩
  · exact hg.sem g (List.all_eq_true.mp hs g hg')
  · exact TaskState.bne_pending.mpr (hg.predState (TaskState.bne_pending.mp hp))

namespace Pool

variable {s s' : (pool cfg prog).State} {a : (pool cfg prog).Action}

/-- What `run` needs of the task at hand: it can be executed, or it is skipped for
a `cancel`. -/
def Certain (s : (pool cfg prog).State) (x : Task) : Prop :=
  s.mem.canExecute x = true ∨ CalledOff s x.id ∨
    ∃ p, x.inner.predecessor = some p ∧ CalledOff s p

theorem Certain.step (hc : cfg.threadCount = 0) (hi : Certain s x) (h : Reachable s)
    (hs : s.step a = some s') : Certain s' x := by
  rcases hi with he | hx | ⟨p, hp, hx⟩
  · exact .inl ((h.grows hs).canExecute he)
  · exact .inr (.inl (hx.step hc h hs))
  · exact .inr (.inr ⟨p, hp, hx.step hc h hs⟩)

theorem Reachable.certain_of_due (h : Reachable s) (hx : s.mem.Due x)
    (ho : (s.mem.cell x.id).owner = .user) : Certain s x := by
  have unchecked : ∀ {t}, (∀ e, (s.mem.cell t).owner ≠ .thread (.caller e)) →
      ∀ e, ¬(Pool.caller s e).pastCheck t :=
    fun hno e hp => hno e (h.owner_of_pastCheck hp)
  rcases hx with he | hs | ⟨p, hp, hs, hno⟩
  · exact .inl he
  · exact .inr (.inl ⟨hs, unchecked fun e => by simp [ho]⟩)
  · exact .inr (.inr ⟨p, hp, hs, unchecked hno⟩)

end Pool

/-- What a call of `run` knows of its task: it has no other, and it will not drop
it. -/
def CallerPc.Decides (s : (pool cfg prog).State) : CallerPc V P → Prop
  | .run p => p.all = false → p.todo = [] ∨ ∃ x, p.todo = [x] ∧ Certain s x
  | .isPanicked x p | .isCancelled x p => p.all = false → p.todo = [] ∧ Certain s x
  | .isCancelledSelf x p =>
      p.all = false → p.todo = [] ∧ (s.mem.canExecute x = true ∨ CalledOff s x.id)
  | .canExecute x _ p => p.all = false → p.todo = [] ∧ s.mem.canExecute x = true
  | .getPanic _ p | .replace _ _ _ _ p | .newSignal _ p | .poll _ _ p | .block _ _ p
  | .settle _ _ _ p => p.all = false → p.todo = []
  | _ => True

theorem CallerPc.Decides.mono {s s' : (pool cfg prog).State}
    (hcert : ∀ x, Certain s x → Certain s' x) (hoff : ∀ t, CalledOff s t → CalledOff s' t)
    (hg : s.mem.Grows s'.mem) {p : CallerPc V P} (hp : p.Decides s) : p.Decides s' := by
  cases p with
  | run p =>
      exact fun ha => (hp ha).imp_right fun hx => hx.imp fun x hx => ⟨hx.1, hcert x hx.2⟩
  | isPanicked x p | isCancelled x p => exact fun ha => ⟨(hp ha).1, hcert x (hp ha).2⟩
  | isCancelledSelf x p => exact fun ha => ⟨(hp ha).1, (hp ha).2.imp hg.canExecute (hoff x.id)⟩
  | canExecute x ss p => exact fun ha => ⟨(hp ha).1, hg.canExecute (hp ha).2⟩
  | _ => exact hp

/-- A call of `submit` or `submit_on`. -/
def CallerInput.SubmitsOne (c : CallerInput) (t : TaskId) : Prop :=
  c = .submit t ∨ ∃ thread, c = .submitOn t thread

theorem CallerInput.submitsOne_of_submits {f : Task → Task} {ts : List TaskId}
    (h : c.submits = some (false, f, ts)) : ∃ t, ts = [t] ∧ c.SubmitsOne t := by
  cases c with
  | submit t =>
      cases h
      exact ⟨t, rfl, .inl rfl⟩
  | submitOn t thread =>
      cases h
      exact ⟨t, rfl, .inr ⟨thread, rfl⟩⟩
  | _ => cases h

/-- A call that was begun in time decides on its task. -/
theorem callerNext_decides {s : (pool cfg prog).State} (h : Reachable s) {p p' : CallerPc V P}
    (hn : callerNext cfg prog e c p s.mem = some (p', op))
    (hdue : p = .idle → ∀ t, c.SubmitsOne t → s.mem.Due (prog.task t)) (hp : p.Decides s) :
    p'.Decides s := by
  cases callerNext_step hn with
  | @inline all f ts hc hs =>
      rintro rfl
      obtain ⟨t, rfl, hone⟩ := CallerInput.submitsOne_of_submits hc
      exact .inr ⟨prog.task t, rfl, h.certain_of_due (hdue rfl t hone) (hs.2.2 t (by simp))⟩
  | @wake _ k | @polled _ k => cases k <;> trivial
  | next hp' =>
      intro ha
      rcases hp ha with hnil | ⟨x, hx, hcert⟩
      · simp [hp'] at hnil
      · obtain ⟨rfl, rfl⟩ := List.cons.inj (hp'.symm.trans hx)
        exact ⟨rfl, hcert⟩
  | again hp' ha => exact fun hne => by simp [Pass.begin] at hne
  | isPanicked | predCancelled => exact fun ha => (hp ha).1
  | notPanicked => exact hp
  | @predNotCancelled x q hs =>
      refine fun ha => ⟨(hp ha).1, ?_⟩
      rcases (hp ha).2 with he | hx | ⟨r, hr, hx⟩
      · exact .inl he
      · exact .inr hx
      · exact absurd (by simpa [Shared.predState, hr] using hx.state) hs
  | selfCancelled => exact fun ha => (hp ha).1
  | selfNotCancelled hs =>
      exact fun ha => ⟨(hp ha).1, (hp ha).2.resolve_right fun hx => hs hx.state⟩
  | signalled => exact hp
  | getPanic | replace | newSignal | more | pending | ready | unblock | settle => exact hp
  | pass => exact fun ha => (hp ha).1
  | unsignalledKept _ ha | predPendingKept _ ha =>
      intro hne
      simp [ha] at hne
  | unsignalledDropped | predPendingDropped => exact fun ha => .inl (hp ha).1
  | settled => exact fun ha => .inl (hp ha)
  | _ => trivial

namespace Pool

variable {s s' : (pool cfg prog).State} {a : (pool cfg prog).Action}

/-- A submit call comes when its task is due, and the body that runs does not
panic. -/
structure Timely (s : (pool cfg prog).State) (a : (pool cfg prog).Action) : Prop where
  due : ∀ e c t, a = call e c → caller s e = .idle → c.SubmitsOne t → s.mem.Due (prog.task t)
  calm : ∀ t, ¬Performs s a (.futurePanics t)

/-- In a run of timely steps, every call of `run` decides on its task. -/
theorem decides (hc : cfg.threadCount = 0)
    (h : System.ReachVia (fun s a _ => Timely s a) (poolInit cfg prog) s) (e : CallerId) :
    (caller s e).Decides s := by
  refine h.invariant (I := fun s => ∀ e, (caller s e).Decides s) (fun e => ?_) ?_ e
  · exact show (CallerPc.idle : CallerPc V P).Decides (poolInit cfg prog) from trivial
  intro s s' a hr hi hs ha e
  have hr : Reachable s := hr.reach
  refine CallerPc.Decides.mono (fun x hx => hx.step hc hr hs) (fun t ht => ht.step hc hr hs)
    (hr.grows hs) ?_
  rcases step_cases hs with ⟨q, o, rfl, -, rfl⟩ | ⟨w, pends, q, o, rfl, -, rfl⟩ |
    ⟨e', c, q, o, rfl, hn, rfl⟩
  · simpa using hi e
  · simpa using hi e
  · by_cases he : e = e'
    · subst he
      rw [caller_move]
      exact callerNext_decides hr hn (fun hp t => ha.due e c t rfl hp) (hi e)
    · rw [caller_move_of_ne s o he]
      exact hi e

/-- A call that decides on its task does not drop it. -/
theorem not_dropTask_of_decides (hc : cfg.threadCount = 0) (h : Reachable s)
    (hi : ∀ e, (caller s e).Decides s) : ¬Performs s a (.dropTask t) := by
  intro ho
  obtain ⟨⟨e, he⟩, -⟩ := h.performs ho
  obtain ⟨q, hn⟩ := ho
  obtain ⟨i, c⟩ := a
  subst he
  have hn : callerNext cfg prog e c (caller s e) s.mem = some (q, .dropTask t) := hn
  rcases callerNext_loses ((h.threadless hc).caller e) hn rfl with
    ⟨r, hr⟩ | ⟨x, ss, r, hp, ha, hx, -⟩
  · rw [hr] at hn
    cases hn
  · have hloc := h.caller e
    have hdec := hi e
    have hno := hloc.canExecute_of_refuses hx
    rw [hp] at hloc hdec
    have hb := (hloc.tasks _ rfl).head_built
    have hexec := (hdec ha).2
    simp only [Shared.canExecute, Shared.predState, hb.inner, hb.wait] at hexec
    simp only [Shared.canExecute, Shared.predState, Program.task] at hno
    rw [hexec] at hno
    cases hno

/-- Timely steps lose nothing. -/
theorem not_abandoned_of_timely (hc : cfg.threadCount = 0)
    (h : System.ReachVia (fun s a _ => Timely s a) (poolInit cfg prog) s) : ¬Abandoned s t := by
  refine h.invariant (I := fun s => ∀ t, ¬Abandoned s t) (fun _ => Abandoned.init) ?_ t
  intro s s' a hr hi hs ha t hlost
  rcases abandoned_cases hc hr.reach hs hlost with hold | ⟨ho, -⟩ | ⟨u, ho⟩
  · exact hi t hold
  · exact not_dropTask_of_decides hc hr.reach (decides hc hr) ho
  · exact ha.calm u ho

end Pool

end MVSync
