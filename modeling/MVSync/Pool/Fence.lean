import MVSync.Pool.Finality
import MVSync.Pool.Latch

/-!
# Fences of several tasks

A `Fence` has one slot for a completion signal, and `Fence::bind` replaces what is
in it.  A fence that is bound to several tasks therefore opens with the one that it
was bound to last, and not with the first one that finishes.
-/

namespace MVSync

open Concurrency Pool

variable {V P : Type} {cfg : Specs} {prog : Program V P} {m : Shared V P} {t : TaskId}
  {f : FenceId} {ts : List TaskId} {op : Op V P}

/-- `bind_fence` with the fence `f`, on one task after the other. -/
def bindFenceAll (f : FenceId) (xs : List Task) (bound : FenceId → Option TaskId) :
    FenceId → Option TaskId :=
  xs.foldl (fun bound x => x.bindFence f bound) bound

theorem bindFenceAll_self {t : TaskId} (h : ts.getLast? = some t)
    (bound : FenceId → Option TaskId) : bindFenceAll f (ts.map prog.task) bound f = some t := by
  obtain ⟨ts, rfl⟩ := List.getLast?_eq_some_iff.mp h
  rw [bindFenceAll, List.map_append, List.foldl_append]
  exact Function.update_self _ _ _

/-! ## The order in which tasks finish -/

/-- The task that finishes: its completion signal is woken. -/
def Op.finishes : Op V P → Option TaskId
  | .wakeSignal t _ => some t
  | _ => none

/-- The task whose completion is waited for by a `Signal::wait` that returns. -/
def Op.awaits : Op V P → Option TaskId
  | .waitSignal t _ => some t
  | _ => none

/-- A task has finished, in the sense of its completion signal. -/
def Shared.Woken (m : Shared V P) (t : TaskId) : Prop := (m.cell t).wakes ≠ []

instance (m : Shared V P) (t : TaskId) : Decidable (m.Woken t) :=
  inferInstanceAs (Decidable (_ ≠ _))

theorem Op.woken_iff : (op.exec m).Woken t ↔ m.Woken t ∨ op.finishes = some t := by
  rcases (Op.cellStep op m t).wakes with he | ⟨site, rfl⟩
  · rw [Shared.Woken, he]
    refine (or_iff_left_of_imp fun hop => ?_).symm
    cases op <;> simp only [finishes, reduceCtorEq, Option.some.injEq] at hop
    subst hop
    simp [Op.exec] at he
  · simp [Shared.Woken, Op.exec, finishes]

/-- The first of the tasks `ts` that finishes, if it is the next one. -/
theorem Op.find_finishes {u : TaskId} (hu : op.finishes = some u) (hut : u ∈ ts)
    (l : List (Op V P)) : ((op :: l).filterMap finishes).find? (· ∈ ts) = some u := by
  simp [List.filterMap_cons_some hu, hut]

theorem Op.find_not_finishes (h : ∀ u ∈ ts, op.finishes ≠ some u) (l : List (Op V P)) :
    ((op :: l).filterMap finishes).find? (· ∈ ts) = (l.filterMap finishes).find? (· ∈ ts) := by
  cases hu : op.finishes with
  | none => rw [List.filterMap_cons_none hu]
  | some u =>
      have hut : u ∉ ts := fun hut => h u hut hu
      simp [List.filterMap_cons_some hu, hut]

namespace Pool

variable {s s' : (pool cfg prog).State} {a : (pool cfg prog).Action}

/-- A fence that is bound to the tasks `ts` is open exactly when one of them has
finished. -/
def OpensWithFirst (f : FenceId) (ts : List TaskId) (s : (pool cfg prog).State) : Prop :=
  s.mem.fenceReady prog f = some (decide (∃ t ∈ ts, s.mem.Woken t))

/-- The tasks in the order in which they finish along a schedule. -/
def finishOrder (s : (pool cfg prog).State) (as : List (pool cfg prog).Action) : List TaskId :=
  (s.log as).filterMap Op.finishes

/-- No wait for one of the tasks returns along the schedule. -/
def Unawaited (ts : List TaskId) (s : (pool cfg prog).State) (as : List (pool cfg prog).Action) :
    Prop :=
  ∀ t ∈ ts, t ∉ (s.log as).filterMap Op.awaits

/-- Nobody waits in the first step, nor after it. -/
theorem Unawaited.of_cons {as : List (pool cfg prog).Action} (h : Unawaited ts s (a :: as))
    {p : (pool cfg prog).Pc a.tid} (hn : s.next a = some (p, op)) :
    (∀ u ∈ ts, op.awaits ≠ some u) ∧ Unawaited ts (s.move a.tid p op) as := by
  rw [Unawaited, System.State.log_of_next hn] at h
  refine ⟨fun u hu ho => h u hu (by simp [List.filterMap_cons_some ho]), fun u hu hm => h u hu ?_⟩
  obtain ⟨o, ho, he⟩ := List.mem_filterMap.mp hm
  exact List.mem_filterMap.mpr ⟨o, List.mem_cons_of_mem _ ho, he⟩

/-- The flag of the task that the fence is bound to, as long as nobody took it. -/
theorem Reachable.opensWithFirst_iff (h : Reachable s) (hf : prog.fence f = some t)
    (ht : t ∈ ts) (hn : (s.mem.cell t).takes = []) :
    OpensWithFirst f ts s ↔ ((∃ u ∈ ts, s.mem.Woken u) → s.mem.Woken t) := by
  have hready : (s.mem.cell t).signal.ready = true ↔ s.mem.Woken t := by
    refine ⟨fun hr => ?_, fun hw => (h.ready_iff hw).mpr hn⟩
    obtain ⟨-, -, site, -, hw⟩ := (h.inv.life.cell t).woken_of_ready hr
    exact fun he => List.cons_ne_nil site [] (hw.symm.trans he)
  rw [OpensWithFirst, Shared.fenceReady, hf, Option.map_some, Option.some.injEq,
    Bool.eq_iff_iff, hready, decide_eq_true_eq]
  exact ⟨fun hw => hw.mpr, fun hw => ⟨fun hw' => ⟨t, ht, hw'⟩, hw⟩⟩

theorem takes_of_move {p : (pool cfg prog).Pc a.tid} (hn : s.next a = some (p, op))
    (ho : op.awaits ≠ some t) (h : (s.mem.cell t).takes = []) :
    ((s.move a.tid p op).mem.cell t).takes = [] := by
  refine (takes_of_step (System.State.step_of_next hn) ?_).trans h
  rintro k ⟨q, hk⟩
  obtain ⟨-, rfl⟩ := Prod.mk.inj (Option.some.inj (hn.symm.trans hk))
  exact ho rfl

/-- Along a schedule on which nobody waits, a fence that is bound to `t` opens with the
first of the tasks, if it did not open before, exactly if `t` is the first to finish. -/
theorem Reachable.opens_iff (hf : prog.fence f = some t) (ht : t ∈ ts)
    (as : List (pool cfg prog).Action) : ∀ {s : (pool cfg prog).State}, Reachable s →
      Unawaited ts s as → (s.mem.cell t).takes = [] →
        ((∃ u ∈ ts, s.mem.Woken u) → s.mem.Woken t) →
        ((∀ n, OpensWithFirst f ts (s.after (as.take n))) ↔
          s.mem.Woken t ∨ ∀ u, (finishOrder s as).find? (· ∈ ts) = some u → u = t) := by
  induction as with
  | nil =>
      intro s h _ hn hw
      refine iff_of_true (fun n => ?_) (.inr nofun)
      rw [List.take_nil]
      exact (h.opensWithFirst_iff hf ht hn).mpr hw
  | cons a as ih =>
      intro s h hu hn hw
      rw [System.State.forall_prefix_cons (I := OpensWithFirst f ts),
        and_iff_right ((h.opensWithFirst_iff hf ht hn).mpr hw)]
      cases hna : s.next a with
      | none =>
          have hs : s.step a = none := by rw [System.State.step, hna]; rfl
          rw [Unawaited, System.State.log_of_none hna] at hu
          rw [hs, finishOrder, System.State.log_of_none hna]
          exact ih h hu hn hw
      | some r =>
          obtain ⟨p, o⟩ := r
          have hs := System.State.step_of_next hna
          have hmove : Reachable (s.move a.tid p o) := .step a h hs trivial
          obtain ⟨hawaits, hrest⟩ := hu.of_cons hna
          have hn' := takes_of_move hna (hawaits t ht) hn
          have hwoken : ∀ u, (s.move a.tid p o).mem.Woken u ↔ s.mem.Woken u ∨ o.finishes = some u :=
            fun u => Op.woken_iff
          rw [hs, Option.getD_some, finishOrder, System.State.log_of_next hna]
          by_cases hwt : s.mem.Woken t
          · have hw' := (hwoken t).mpr (.inl hwt)
            exact iff_of_true ((ih hmove hrest hn' fun _ => hw').mpr (.inl hw')) (.inl hwt)
          rw [or_iff_right hwt]
          by_cases hfirst : ∃ u ∈ ts, o.finishes = some u
          · -- the first of the tasks finishes
            obtain ⟨u, hut, hou⟩ := hfirst
            rw [Op.find_finishes hou hut]
            by_cases he : u = t
            · subst he
              have hw' := (hwoken u).mpr (.inr hou)
              exact iff_of_true ((ih hmove hrest hn' fun _ => hw').mpr (.inl hw'))
                (by simp [eq_comm])
            · refine iff_of_false (fun hall => ?_) (by simp [he])
              have hopen := (hmove.opensWithFirst_iff hf ht hn').mp (hall 0)
                ⟨u, hut, (hwoken u).mpr (.inr hou)⟩
              rcases (hwoken t).mp hopen with hw' | hw'
              · exact hwt hw'
              · exact he (Option.some.inj (hou.symm.trans hw'))
          · have hno : ∀ u ∈ ts, o.finishes ≠ some u := fun u hut hou => hfirst ⟨u, hut, hou⟩
            have hsame : ∀ u ∈ ts, (s.move a.tid p o).mem.Woken u ↔ s.mem.Woken u :=
              fun u hut => (hwoken u).trans (or_iff_left (hno u hut))
            have hw' : (∃ u ∈ ts, (s.move a.tid p o).mem.Woken u) →
                (s.move a.tid p o).mem.Woken t := by
              rintro ⟨u, hut, hu⟩
              exact absurd (hw ⟨u, hut, (hsame u hut).mp hu⟩) hwt
            rw [ih hmove hrest hn' hw', hsame t ht, or_iff_right hwt, Op.find_not_finishes hno]
            rfl

/-- A fence that is bound to several tasks, one after the other, opens with the first of
them to finish exactly if that is the one it was bound to last. -/
theorem fence_opens (f : FenceId) (ts : List TaskId) (t : TaskId) (hlast : ts.getLast? = some t)
    (hf : prog.fence f = bindFenceAll f (ts.map prog.task) (fun _ => none) f)
    (as : List (pool cfg prog).Action) (hu : Unawaited ts (poolInit cfg prog) as) :
    (∀ n, OpensWithFirst f ts ((poolInit cfg prog).after (as.take n))) ↔
      ∀ u, (finishOrder (poolInit cfg prog) as).find? (· ∈ ts) = some u → u = t := by
  have hbound : prog.fence f = some t := hf.trans (bindFenceAll_self hlast _)
  have hnone : ∀ u, ¬(poolInit cfg prog).mem.Woken u := fun u hw => hw rfl
  rw [Reachable.opens_iff hbound (List.mem_of_getLast? hlast) as .init hu rfl
    fun hw => hw.elim fun u hu => absurd hu.2 (hnone u), or_iff_right (hnone t)]

end Pool

/-! ## Two fences -/

/-- Functions with two fences: one is bound to `0` and then to `1`, and the other one
the other way round. -/
def fenced : Program Nat Nat :=
  { single with fence := fun
      | 0 => bindFenceAll 0 [single.task 0, single.task 1] (fun _ => none) 0
      | 1 => bindFenceAll 1 [single.task 1, single.task 0] (fun _ => none) 1
      | _ => none }

set_option maxRecDepth 4000

/-- The two functions are submitted, and the first one finishes. -/
def fencedSchedule : List (pool Specs.one fenced).Action := submits 0 [0, 1] ++ turns 20

theorem fencedSchedule_unawaited (ts : List TaskId) :
    Unawaited ts (poolInit Specs.one fenced) fencedSchedule := by
  have hno : ((poolInit Specs.one fenced).log fencedSchedule).filterMap Op.awaits = [] := by decide
  intro t _
  rw [hno]
  exact List.not_mem_nil

/-- The fence that is bound to `1` last is closed when `0` has finished. -/
theorem Pool.not_fence_opens :
    ¬∀ (f : FenceId) (ts : List TaskId), ts ≠ [] →
      fenced.fence f = bindFenceAll f (ts.map fenced.task) (fun _ => none) f →
      ∀ as, Unawaited ts (poolInit Specs.one fenced) as →
        OpensWithFirst f ts ((poolInit Specs.one fenced).after as) := by
  intro h
  have hopen := h 0 [0, 1] (by decide) rfl fencedSchedule (fencedSchedule_unawaited _)
  revert hopen
  unfold OpensWithFirst
  decide

/-- The fence that is bound to `0` last opens when `0` has finished. -/
theorem Pool.fence_opens_lastFirst :
    OpensWithFirst 1 [1, 0] ((poolInit Specs.one fenced).after fencedSchedule) := by
  have hiff : (∀ n, OpensWithFirst 1 [1, 0]
      ((poolInit Specs.one fenced).after (fencedSchedule.take n))) ↔ _ :=
    fence_opens 1 [1, 0] 0 rfl rfl fencedSchedule (fencedSchedule_unawaited _)
  have horder : finishOrder (poolInit Specs.one fenced) fencedSchedule = [0] := by decide
  have hfirst := hiff.mpr fun u hu => by
    rw [horder] at hu
    simpa [eq_comm] using hu
  simpa using hfirst fencedSchedule.length

end MVSync
