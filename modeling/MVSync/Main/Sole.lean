import MVSync.Main.Flag

/-!
# One main thread

A registration is let in when the worker in `MVSync.worker` has stored its 2, and it
puts its own worker there before the lock is given back.  The loop runs without the
lock, but it is the only one that stores the 2, as the last thing it does.  So the
registered worker whose loop has not ended is the one in `MVSync.worker`.

`submit_to_main_thread` holds the lock for reading until the task is sent, so the worker
that it sends to is that one as well.
-/

namespace MVSync.Main

open Concurrency

variable {P : Type} {s s' : (main P).State} {a : (main P).Action} {m : Shared P} {g : WorkerId}
  {o : Op P} {i : Tid}

/-- The worker was registered as the main thread, and its loop has not done its final
store of the end flag. -/
structure Serving (s : (main P).State) (g : WorkerId) : Prop where
  made : g < s.mem.count
  registered : (s.mem.workers g).pool = false
  unfinished : ¬(run s g = .drop ∨ run s g = .returned)

/-- The thread is in `WorkerThread::send`, called by `submit_to_main_thread`. -/
def Submitting (s : (main P).State) (i : Tid) (g : WorkerId) : Prop :=
  ∃ x p, i.call? (s.pc i) = some (.send .submitToMainThread g x p)

/-! ## The stored worker -/

/-- A loop that serves after a step did so before, if its worker was there. -/
theorem Serving.of_step (hg : Serving s' g) (h : Reachable s) (hs : s.step a = some s')
    (hlt : g < s.mem.count) : Serving s g := by
  have hpool : ∀ o : Op P, s'.mem = o.exec s.mem → (s.mem.workers g).pool = false := by
    intro o hm
    rw [← Op.pool (o := o) hlt, ← hm]
    exact hg.registered
  rcases h.step_run g hs with ⟨o, -, hrun, -, hm⟩ | ⟨o, -, -, hrun, -, hm⟩
  · refine ⟨hlt, hpool o hm, fun hst => ?_⟩
    exact hg.unfinished (.inr (hrun.stored hst).2)
  · exact ⟨hlt, hpool o hm, hrun ▸ hg.unfinished⟩

/-- A main thread that is finished does not serve. -/
theorem Serving.not_finished (hg : Serving s g) (h : Reachable s) (hw : s.mem.worker = some g) :
    s.mem.mainThreadFinished = false := by
  refine Bool.eq_false_iff.mpr fun hfin => hg.unfinished (h.stored g ?_)
  exact Nat.le_antisymm (h.endFlag_le g) ((Shared.mainThreadFinished_iff hw).mp hfin)

/-- The worker that serves is the one in `MVSync.worker`. -/
theorem Reachable.serving (h : Reachable s) :
    ∀ g, Serving s g → s.mem.worker = some g := by
  refine h.invariant (I := fun s => ∀ g, Serving s g → s.mem.worker = some g)
    (fun g hg => absurd hg.made (Nat.not_lt_zero g)) ?_
  intro s s' a (hr : Reachable s) hi hs _ g hg
  obtain ⟨q, o, -, hpre, he⟩ := hr.step_cases hs
  have hm : s'.mem = o.exec s.mem := congrArg System.State.mem he
  have old : g < s.mem.count → s.mem.worker = some g := fun hlt => hi g (hg.of_step hr hs hlt)
  by_cases ho : ∃ b, o = .replaceWorker b
  · obtain ⟨b, rfl⟩ := ho
    have hlt : g < s.mem.count + 1 := by simpa [hm, Op.exec] using hg.made
    rcases Nat.lt_succ_iff_lt_or_eq.mp hlt with hlt | rfl
    · -- the worker that is replaced has stored its 2
      have hfin := (hg.of_step hr hs hlt).not_finished hr (old hlt)
      simp [hpre.2] at hfin
    · rw [hm]
      rfl
  · rw [not_exists] at ho
    rw [hm, Op.exec_worker ho]
    by_cases hlt : g < s.mem.count
    · exact old hlt
    · -- a worker of the pool was made
      have hmade : g < (o.exec s.mem).count := hm ▸ hg.made
      rcases o.count s.mem with hc | ⟨hc, ⟨b, rfl⟩ | ⟨n, rfl⟩⟩
      · exact absurd (hc ▸ hmade) hlt
      · exact absurd rfl (ho b)
      · obtain rfl : g = s.mem.count := Nat.eq_of_lt_succ_of_not_lt (hc ▸ hmade) hlt
        have hpool := hg.registered
        simp [hm, Op.exec, WorkerThread.new] at hpool

/-! ## The worker that is sent to -/

theorem CallStep.toSubmit {call : CallPc} {x : Task} {p : SendPc}
    (h : CallStep i m call (.send .submitToMainThread g x p) o) :
    (∃ p', call = .send .submitToMainThread g x p') ∨ m.worker = some g := by
  generalize hc : CallPc.send .submitToMainThread g x p = call' at h
  cases h with
  | submit hg _ =>
      cases hc
      exact .inr hg
  | send _ =>
      cases hc
      exact .inl ⟨_, rfl⟩
  | fetchSub =>
      cases hc
      exact .inl ⟨_, rfl⟩
  | @wakeSend k => cases k <;> cases hc
  | @fail k => cases k <;> cases hc
  | _ => cases hc

/-- A submit call does not replace the worker. -/
theorem CallStep.ne_replaceWorker {call : CallPc} {x : Task} {p : SendPc}
    (h : CallStep i m call (.send .submitToMainThread g x p) o) (b : Bool) :
    o ≠ .replaceWorker b := by
  generalize hc : CallPc.send .submitToMainThread g x p = call' at h
  cases h with
  | replaceWorker => cases hc
  | _ => simp

/-- A submit call holds the lock while it sends. -/
theorem Submitting.holds (hi : Submitting s i g) (h : Reachable s) : Holds s.mem i := by
  obtain ⟨x, p, hp⟩ := hi
  obtain ⟨-, -, hh, -⟩ := (h.hold.loc i).call hp
  exact hh.resolve_left (by simp)

/-- A submit call sends to the worker in `MVSync.worker`. -/
theorem Reachable.submitting (h : Reachable s) :
    ∀ i g, Submitting s i g → s.mem.worker = some g := by
  refine h.invariant (I := fun s => ∀ i g, Submitting s i g → s.mem.worker = some g) ?_ ?_
  · rintro (k | k | k) g ⟨x, p, hp⟩ <;> cases hp
  intro s s' a (hr : Reachable s) hi hs _ i g ⟨x, p, hp⟩
  obtain ⟨q, o, hstep, hpre, rfl⟩ := hr.step_cases hs
  show (o.exec s.mem).worker = some g
  by_cases hia : i = a.tid
  · subst hia
    have hq : (s.move a.tid q o).pc a.tid = q := System.State.move_pc_self s a.tid q o
    rw [hq] at hp
    rcases hstep.call with ⟨c, c', hc, hc', hcall⟩ | ⟨-, hout, -⟩
    · obtain rfl := Option.some.inj (hc'.symm.trans hp)
      rw [Op.exec_worker hcall.ne_replaceWorker]
      rcases hcall.toSubmit with ⟨p', rfl⟩ | hg
      · exact hi _ g ⟨x, p', hc⟩
      · exact hg
    · obtain ⟨last, hcode⟩ := hout _ hp
      cases hcode
  · rw [System.State.move_pc_of_ne s q o hia] at hp
    have hsub : Submitting s i g := ⟨x, p, hp⟩
    rw [hpre.worker hr.inv hia (hsub.holds hr)]
    exact hi i g hsub

/-- At most one registered main thread has not done its final store, it is the one in
`MVSync.worker`, and a submit call sends to the one that is there. -/
theorem one_main_thread (s : (main P).State) (h : Reachable s) :
    (∀ g g', Serving s g → Serving s g' → g = g') ∧ (∀ g, Serving s g → s.mem.worker = some g) ∧
      ∀ i g, Submitting s i g → s.mem.worker = some g :=
  ⟨fun g g' hg hg' => Option.some.inj ((h.serving g hg).symm.trans (h.serving g' hg')),
    h.serving, h.submitting⟩

/-- The first main thread has done its final store, a second one is registered, a third
one is rejected, and a task is about to be sent. -/
def secondSchedule : List (main Empty).Action :=
  endedSchedule ++ runs 0 1 ++ calls 1 (.registerMainThread (function 1) true) 8 ++
    calls 2 (.registerMainThread (function 2) false) 4 ++ runs 1 1 ++
    calls 3 (.submitToMainThread (function 3)) 2

set_option maxRecDepth 4000 in
/-- The second main thread serves, and the task is sent to it. -/
theorem one_main_thread_secondRun :
    Serving (init.after secondSchedule) 1 ∧ Submitting (init.after secondSchedule) (.user 3) 1 ∧
      (init.after secondSchedule).mem.worker = some 1 := by
  have hserving : Serving (init.after secondSchedule) 1 := ⟨by decide, by decide, by decide⟩
  exact ⟨hserving, ⟨function 3, .send, by decide⟩,
    (one_main_thread _ (.after secondSchedule .init)).2.1 1 hserving⟩

end MVSync.Main
