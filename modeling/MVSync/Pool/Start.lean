import MVSync.Pool.GetPanic
import MVSync.Pool.Placement

/-!
# Cancelling before the start

The dispatcher asks `is_cancelled` before it sends a task to a worker, and the
worker polls what it receives without asking again.  So a `cancel` that comes
before the last such check of the dispatcher keeps the body from starting
(`Pool.cancel_prevents_start`), and one that comes between that check and the
first poll does not.

`Pool.Stopped` is what a cancelled task that was not sent keeps: it stays as it
is until the dispatcher settles it.  `is_panicked` is asked first, so a wait then
gets `Panicked` if the predecessor panicked, and `Cancelled` otherwise.
-/

namespace MVSync

open Concurrency Pool

variable {V P : Type} {cfg : Specs} {prog : Program V P} {m : Shared V P} {i : Tid} {t : TaskId}
  {op : Op V P}

/-! ## The checks of the dispatcher -/

/-- The dispatcher has found `t` not cancelled, and has not sent it or put it
back yet. -/
def DispatcherPc.pastCheck (t : TaskId) : DispatcherPc P → Prop
  | .select x _ _ _ _ | .freeWorkers x _ _ _ | .send x _ _ _ => x.id = t
  | _ => False

/-- The dispatcher gets past its check of a task that is not cancelled. -/
theorem dispatcherNext_pastCheck {d d' : DispatcherPc P}
    (h : dispatcherNext cfg d m = some (d', op)) (hd : d'.pastCheck t) :
    d.pastCheck t ∨ (m.cell t).state ≠ .cancelled := by
  cases dispatcherNext_step h with
  | preferred hc =>
      obtain rfl := hd
      exact .inr hc
  | noPreference hc =>
      obtain rfl := hd
      exact .inr hc
  | select => exact .inl hd
  | selected => exact .inl hd
  | free _ => exact .inl hd
  | _ => exact hd.elim

/-- The operations of a thread that has the task at hand run, or skips it. -/
def Op.runs : Op V P → Bool
  | .pass _ | .replace _ _ _ => true
  | _ => false

/-- A caller runs or skips a task by inline execution. -/
theorem callerNext_runs {e : CallerId} {c : CallerInput} {p p' : CallerPc V P}
    (h : callerNext cfg prog e c p m = some (p', op)) (ho : op.runs = true) : p.pass ≠ none := by
  intro hp
  cases callerNext_step h with
  | pass | replace | more | pending | err | ready | settle | settled => cases hp
  | _ => cases ho

/-- A fresh task is skipped, passed or sent, or stays fresh. -/
theorem Op.Pre.fresh_cases (hp : op.Pre prog i m) (hf : (m.cell t).stage = .fresh) :
    ((op.exec m).cell t).stage = .fresh ∨ (∃ st f, op = .replace t st f) ∨ op = .pass t ∨
      ∃ w x, op = .sendWorker w x ∧ x.id = t := by
  rcases (Op.cellStep op m t).stage with hs | hs | ⟨w, x, rfl, rfl⟩ | ⟨home, site, rfl⟩
  · exact .inl (hs.trans hf)
  · cases op
    case replace u st f =>
      obtain ⟨rfl, -⟩ := Prod.mk.inj (Option.some.inj hs)
      exact .inr (.inl ⟨st, f, rfl⟩)
    case pass u =>
      obtain ⟨rfl, -⟩ := Prod.mk.inj (Option.some.inj hs)
      exact .inr (.inr (.inl rfl))
    case waitSignal u k =>
      cases k <;> simp only [Op.moveTo, Option.some.injEq, Prod.mk.injEq, reduceCtorEq] at hs
      obtain ⟨rfl, -⟩ := hs
      have ha := (hp.2.resolve_left (by simp)).1.2
      simp [hf] at ha
    case takeResult u k r =>
      cases k <;> simp only [Op.moveTo, Option.some.injEq, Prod.mk.injEq, reduceCtorEq] at hs
      obtain ⟨rfl, -⟩ := hs
      have ha := hp.2.2.1.1.2
      simp [hf] at ha
    case takeBuffer u k v =>
      cases k <;> simp only [Op.moveTo, Option.some.injEq, Prod.mk.injEq, reduceCtorEq] at hs
      obtain ⟨rfl, -⟩ := hs
      have ha := hp.2.2.1.1.2
      simp [hf] at ha
    all_goals
      simp only [Op.moveTo, Option.some.injEq, Prod.mk.injEq, reduceCtorEq] at hs
    all_goals
      obtain ⟨rfl, -⟩ := hs
      exfalso
    case invoke =>
      obtain ⟨-, st, ha, rfl | ⟨r, rfl⟩⟩ := hp
      · simp [ha.2] at hf
      · simp [ha.2] at hf
    case bodyReturns =>
      obtain ⟨v, ha, -⟩ := hp
      simp [ha.2] at hf
    case futurePanics =>
      obtain ⟨v, q, ha, -⟩ := hp
      simp [ha.2] at hf
    case writeBuffer => simp [hp.2] at hf
    case writeReady => simp [hp.2] at hf
    case silent => exact hp
    case wakeSignal => simp [hp.1.2] at hf
    case replacePanicked => simp [hp.2.2] at hf
    case foundCancelled =>
      obtain ⟨-, ⟨v, ha⟩, -⟩ := hp
      simp [ha.2] at hf
  · exact .inr (.inr (.inr ⟨w, x, rfl, rfl⟩))
  · have ha := hp.1.2
    simp [hf] at ha

/-- A body is invoked by the thread that found it executable. -/
theorem Op.Pre.invoked_eq (hp : op.Pre prog i m) (hw : (m.cell t).stage.waits = false) :
    ((op.exec m).cell t).invoked = (m.cell t).invoked := by
  refine (Op.cellStep op m t).invoked.resolve_right ?_
  rintro ⟨v, rfl⟩
  obtain ⟨-, st, ha, rfl | ⟨r, rfl⟩⟩ := hp
  · simp [ha.2, Stage.waits] at hw
  · simp [ha.2, Stage.waits] at hw

theorem Stage.waits_of_decided {st : Stage V P} (h : st.decided = true) : st.waits = false := by
  cases st <;> first | rfl | cases h

namespace Pool

variable {s s' : (pool cfg prog).State} {a : (pool cfg prog).Action}

/-- With threads, no caller passes a task to itself. -/
theorem Reachable.not_pass (hc : cfg.threadCount ≠ 0) (h : Reachable s) :
    ¬Performs s a (.pass t) := by
  rintro ⟨q, hn⟩
  obtain ⟨i, c⟩ := a
  cases i with
  | dispatcher => cases dispatcherNext_ofCaller hn
  | worker w => cases workerNext_ofCaller hn
  | caller e => exact callerNext_runs hn rfl (h.pass_eq_none hc e)

/-- A task is sent by a dispatcher that is past its check. -/
theorem pastCheck_of_sends {w : WorkerId} {x : Task} (h : Reachable s)
    (ho : Performs s a (.sendWorker w x)) : (dispatcher s).pastCheck x.id := by
  obtain ⟨q, hn⟩ := ho
  have hi : a.tid = .dispatcher := (h.pre hn).1
  obtain ⟨i, c⟩ := a
  subst hi
  obtain ⟨todo, remaining, hd, -⟩ := dispatcherNext_sendWorker hn
  rw [show dispatcher s = _ from hd]
  rfl

/-! ## Cancelled tasks that were not sent -/

/-- The task was not looked at yet, or the dispatcher will check it once more. -/
def Stoppable (s : (pool cfg prog).State) (t : TaskId) : Prop :=
  (s.mem.cell t).stage = .fresh ∧ ¬(dispatcher s).pastCheck t

/-- The task was settled without being run. -/
def Skipped (s : (pool cfg prog).State) (t : TaskId) : Prop :=
  (s.mem.cell t).stage.decided = true ∧
    ((s.mem.cell t).finish = some .cancelled ∨
      (s.mem.cell t).finish = some .panicked ∧
        ∃ p, prog.pred t = some p ∧ (s.mem.cell p).finish = some .panicked)

/-- The body of a cancelled task was not invoked, and will not be. -/
def Stopped (s : (pool cfg prog).State) (t : TaskId) : Prop :=
  (s.mem.cell t).invoked = [] ∧
    (Stoppable s t ∧ (s.mem.cell t).state = .cancelled ∨ Skipped s t)

theorem Skipped.step (hi : Skipped s t) (h : Reachable s) (hs : s.step a = some s') :
    Skipped s' t := by
  have hg := h.grows hs
  refine ⟨(hg.cell t).decided hi.1, ?_⟩
  rcases hi.2 with hf | ⟨hf, p, hp, hpf⟩
  · exact .inl ((hg.cell t).finish _ hf)
  · exact .inr ⟨(hg.cell t).finish _ hf, p, hp, (hg.cell p).finish _ hpf⟩

/-- The dispatcher does not get past its check of a cancelled task. -/
theorem pastCheck_of_step (hs : s.step a = some s') (ht : (s.mem.cell t).state = .cancelled)
    (hp : ¬(dispatcher s).pastCheck t) : ¬(dispatcher s').pastCheck t := by
  rcases step_cases hs with ⟨q, o, rfl, hn, rfl⟩ | ⟨w, pends, q, o, rfl, -, rfl⟩ |
    ⟨e, c, q, o, rfl, -, rfl⟩
  · rw [dispatcher_move]
    intro hq
    exact (dispatcherNext_pastCheck hn hq).elim hp fun hne => hne ht
  · rwa [dispatcher_move_worker]
  · rwa [dispatcher_move_caller]

/-- A step of any thread leaves a stopped task alone, or settles it unrun. -/
theorem Stopped.step (hc : cfg.threadCount ≠ 0) (hi : Stopped s t) (h : Reachable s)
    (hs : s.step a = some s') : Stopped s' t := by
  obtain ⟨o, ho, hmem⟩ := mem_of_step hs
  have hpre := h.performs ho
  rcases hi with ⟨hinv, ⟨⟨hf, hp⟩, hst⟩ | hsk⟩
  · have hinv' : (s'.mem.cell t).invoked = [] := by
      rw [hmem, hpre.invoked_eq (by simp [hf, Stage.waits]), hinv]
    refine ⟨hinv', ?_⟩
    rcases hpre.fresh_cases hf with hf' | ⟨st, f, rfl⟩ | rfl | ⟨w, x, rfl, rfl⟩
    · refine .inl ⟨⟨hmem ▸ hf', pastCheck_of_step hs hst hp⟩, ?_⟩
      rw [← hst]
      refine (h.state_eq_iff (by simp [hst]) hs).mpr ⟨?_, ?_⟩
      · rintro ⟨-, hne | ⟨q, hne⟩⟩
        · simp [hst] at hne
        · simp [hst] at hne
      · -- an outcome is written together with the stage
        rintro ⟨-, o', st, ho', hw, hne⟩
        obtain rfl := ho.unique ho'
        cases o <;> simp only [Op.writes, reduceCtorEq, Option.ite_none_right_eq_some] at hw
        all_goals obtain ⟨rfl, he⟩ := hw
        case cancel =>
          obtain rfl := Option.some.inj he
          simp at hne
        all_goals simp [Op.exec] at hf'
    · -- the task is skipped
      refine .inr ⟨by simp [hmem, Op.exec, Stage.decided], ?_⟩
      have hsk := hpre.2
      unfold Skips at hsk
      split at hsk
      · obtain ⟨-, p, hpt, hpf⟩ := hsk
        refine .inr ⟨by simp [hmem, Op.exec], p, hpt, ?_⟩
        exact ((h.grows hs).cell p).finish _ hpf
      · exact .inl (by simp [hmem, Op.exec])
      · exact hsk.elim
    · exact absurd ho (h.not_pass hc)
    · exact absurd (pastCheck_of_sends h ho) hp
  · refine ⟨?_, .inr (hsk.step h hs)⟩
    rw [hmem, hpre.invoked_eq (Stage.waits_of_decided hsk.1), hinv]

/-- What a wait on a stopped task gets. -/
theorem Stopped.result (hi : Stopped s t) (h : Reachable s) {r : TaskResult V P}
    (hr : (s.mem.cell t).result = some r) :
    r = .cancelled ∨ r = .panicked .unit ∧
      ∃ p, prog.pred t = some p ∧ (s.mem.cell p).finish = some .panicked := by
  obtain ⟨hok, hw⟩ := (h.inv.life.cell t).resultOk hr
  have hd := (h.inv.life.cell t).stage_decided hw
  rcases hi.2 with ⟨⟨hf, -⟩, -⟩ | ⟨-, hsk⟩
  · simp [hf, Stage.decided] at hd
  · cases r with
    | returned v => rcases hsk with hf | ⟨hf, -⟩ <;> simp [hok.2] at hf
    | panicked q =>
        obtain ⟨rfl, hf⟩ := hok
        exact .inr ⟨rfl, (hsk.resolve_left (by simp [hf])).2⟩
    | cancelled => exact .inl rfl

end Pool

/-! ## Two runs -/

set_option maxRecDepth 2000

end MVSync
