import MVSync.Pool.Threads

/-!
# Who cancels

Only a call of `cancel` sets the mark of a cancelled task, so a schedule without
such a call cancels nothing.
-/

namespace MVSync

open Concurrency Pool

variable {V P : Type} {cfg : Specs} {prog : Program V P} {m m' : Shared V P} {i : Tid}
  {t u : TaskId} {x : Task}

/-! ## No other step cancels -/

/-- The operations of the callers only. -/
def Op.ofCaller : Op V P → Bool
  | .moveHandle _ _ | .cancel _ | .beginSubmit _ _ | .send _ | .endSubmit | .failSubmit _
  | .dropQueue | .beginRun _ _ | .pass _ | .dropTask _ | .dropCaller _ | .newCallerSignal _
  | .waitCallerSignal _ => true
  | _ => false

theorem Op.ofCaller_of_ofFuture {op : Op V P} (h : op.ofFuture = true) : op.ofCaller = false := by
  cases op <;> first | rfl | cases h

/-- The dispatcher does nothing that only callers do. -/
theorem dispatcherNext_ofCaller {p p' : DispatcherPc P} {op : Op V P}
    (h : dispatcherNext cfg p m = some (p', op)) : op.ofCaller = false := by
  cases dispatcherNext_step h with
  | settle hs | settled hs => exact Op.ofCaller_of_ofFuture (settleNext_ofFuture hs)
  | _ => rfl

/-- A worker does nothing that only callers do. -/
theorem workerNext_ofCaller {w : WorkerId} {pends : Bool} {p p' : WorkerPc V P} {op : Op V P}
    (h : workerNext prog w pends p m = some (p', op)) : op.ofCaller = false := by
  cases workerNext_step h with
  | more hp | pending hp | err hp | ready hp =>
      exact Op.ofCaller_of_ofFuture (pollNext_ofFuture hp)
  | settle hs | settled hs => exact Op.ofCaller_of_ofFuture (settleNext_ofFuture hs)
  | _ => rfl

/-- A caller cancels by a call of `cancel`. -/
theorem callerNext_cancel {e : CallerId} {c : CallerInput} {p p' : CallerPc V P}
    (h : callerNext cfg prog e c p m = some (p', .cancel t)) : c = .cancel t := by
  cases callerNext_step h with
  | cancel hc => exact hc
  | more hp | pending hp | err hp | ready hp => cases pollNext_ofFuture hp
  | settle hs | settled hs => cases settleNext_ofFuture hs

/-! ## Schedules without `cancel` -/

/-- The call of `cancel`. -/
def Pool.cancels : (pool cfg prog).Action → Bool
  | ⟨.caller _, .cancel _⟩ => true
  | _ => false

/-- A step sets the mark of a task by a call of `cancel` only. -/
theorem Pool.cancelled_cases {s s' : (pool cfg prog).State} {a : (pool cfg prog).Action}
    (hs : s.step a = some s') (t : TaskId) :
    (s'.mem.cell t).cancelled = (s.mem.cell t).cancelled ∨ ∃ e, a = call e (.cancel t) := by
  obtain ⟨p, o, hn, rfl⟩ := System.State.step_cases hs
  refine (Op.cellStep o s.mem t).cancelled.imp_right ?_
  rintro rfl
  obtain ⟨i, c⟩ := a
  cases i with
  | dispatcher => cases dispatcherNext_ofCaller hn
  | worker w => cases workerNext_ofCaller hn
  | caller e =>
      have hc : c = CallerInput.cancel t := callerNext_cancel hn
      exact ⟨e, hc ▸ rfl⟩

/-- A step other than a call of `cancel` sets no mark. -/
theorem Pool.cancelled_of_step {s s' : (pool cfg prog).State} {a : (pool cfg prog).Action}
    (ha : cancels a = false) (hs : s.step a = some s') (t : TaskId) :
    (s'.mem.cell t).cancelled = (s.mem.cell t).cancelled := by
  refine (cancelled_cases hs t).resolve_right ?_
  rintro ⟨e, rfl⟩
  cases ha

theorem Pool.noCancel_step {s s' : (pool cfg prog).State} {a : (pool cfg prog).Action}
    (h : ¬SomeCancel s.mem) (ha : cancels a = false) (hs : s.step a = some s') :
    ¬SomeCancel s'.mem := by
  rintro ⟨t, ht⟩
  exact h ⟨t, cancelled_of_step ha hs t ▸ ht⟩

theorem Pool.noCancel_after {as : List (pool cfg prog).Action} (has : as.all (!cancels ·) = true) :
    ∀ {s : (pool cfg prog).State}, ¬SomeCancel s.mem → ¬SomeCancel (s.after as).mem := by
  induction as with
  | nil => exact id
  | cons a as ih =>
      intro s hs
      simp only [List.all_cons, Bool.and_eq_true, Bool.not_eq_true'] at has
      refine ih (by simpa using has.2) ?_
      cases hst : s.step a with
      | none => exact hs
      | some s' => exact noCancel_step hs has.1 hst

theorem Pool.noCancel_init : ¬SomeCancel (poolInit cfg prog).mem := by
  rintro ⟨t, ht⟩
  cases ht

end MVSync
