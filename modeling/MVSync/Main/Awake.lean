import MVSync.Main.Finished

/-!
# No wake-up is slept through

A worker has one signal for all its futures and for its sender, and the flag of the
signal stays up until the worker waits.  A waker that is invoked after the poll of
its future began leaves the flag up at the wait, whatever the worker did in between
(`Heard`).  A task that is sent after the last look at the channel leaves it up as
soon as the send has woken the worker (`Noticed`).
-/

namespace MVSync.Main

open Concurrency

variable {P : Type} {s s' : (main P).State} {a : (main P).Action} {m : Shared P} {g : WorkerId}
  {f : AwaitId} {o : Op P} {t : TaskId} {i : Tid}

/-! ## The signal of a worker -/

/-- A flag that is up stays up until the worker waits. -/
theorem Op.keepsUp (hg : g < m.count) (ho : o ≠ .waitSignal g)
    (hr : (m.workers g).signal.ready = true) : ((o.exec m).workers g).signal.ready = true := by
  have hmk := o.makes m g
  generalize (o.exec m).workers g = w at hmk ⊢
  cases hmk with
  | registered h => exact absurd h (Nat.ne_of_lt hg)
  | new h => exact absurd h (Nat.ne_of_lt hg)
  | waitSignal => exact absurd rfl ho
  | wakeSend => rfl
  | wake => rfl
  | _ => exact hr

/-- Only an invocation sets the mark of a waker. -/
theorem Op.woken {u : Polled} (hu : (o.exec m).woken u = true) :
    (m.woken u = true ∧ o ≠ .poll u) ∨ o = .wake u := by
  cases o with
  | poll v =>
      by_cases h : u = v
      · subst h
        simp [Op.exec] at hu
      · have hu' : m.woken u = true := by simpa [Op.exec, h] using hu
        exact .inl ⟨hu', by simpa using Ne.symm h⟩
  | wake v =>
      by_cases h : u = v
      · exact .inr (h ▸ rfl)
      · have hu' : m.woken u = true := by simpa [Op.exec, h] using hu
        exact .inl ⟨hu', by simp⟩
  | _ => exact .inl ⟨hu, by simp⟩

/-- If the flag is up for an invoked waker, it is after an operation. -/
theorem Op.hears (hg : g < m.count) (ho : o ≠ .waitSignal g)
    (h : m.woken (.task g t) = true → (m.workers g).signal.ready = true)
    (hu : (o.exec m).woken (.task g t) = true) :
    ((o.exec m).workers g).signal.ready = true := by
  rcases Op.woken hu with ⟨hu, -⟩ | rfl
  · exact o.keepsUp hg ho (h hu)
  · simp [Op.exec, Shared.wakeWorkers]

/-! ## The loop of a worker -/

/-- The futures whose poll began in the turn of the loop that ends with the wait. -/
def RunPc.polled : RunPc P → List Task
  | .retain kept _ | .settle _ _ kept _ | .errArm _ _ kept _ | .readyArm _ kept _ => kept
  | .poll x _ kept _ | .pendingArm x kept _ => x :: kept
  | .check futures | .wait futures => futures
  | _ => []

/-- For a waker that was invoked since the poll of its future began the flag is up. -/
def Heard (s : (main P).State) (g : WorkerId) : Prop :=
  ∀ x ∈ (run s g).polled, s.mem.woken (.task g x.id) = true →
    (s.mem.workers g).signal.ready = true

/-- At the wait the flag is up for a task in the channel whose send has woken the
worker. -/
def Noticed (s : (main P).State) (g : WorkerId) : Prop :=
  ∀ futures, run s g = .wait futures → ∀ x ∈ (s.mem.workers g).channel,
    (g, x.id) ∈ s.mem.delivered → (s.mem.workers g).signal.ready = true

theorem Op.Pre.not_waitSignal (hp : o.Pre i m) (hi : i ≠ .run g) : o ≠ .waitSignal g := by
  rintro rfl
  exact hi hp

theorem CallStep.not_waitSignal {p p' : CallPc} (h : CallStep i m p p' o) :
    o ≠ .waitSignal g := by
  cases h <;> simp

/-- A future that was polled was polled before the step, or its poll begins. -/
theorem RunStep.polled {p p' : RunPc P} {x : Task} (h : RunStep g m p p' o)
    (hx : x ∈ p'.polled) :
    o ≠ .waitSignal g ∧ (x ∈ p.polled ∨ o = .poll (.task g x.id)) := by
  cases h with
  | received _ => cases hx
  | recv _ => cases hx
  | wake _ => cases hx
  | more _ => cases hx
  | poll =>
      refine ⟨by simp, ?_⟩
      rcases List.mem_cons.mp hx with rfl | hx
      · exact .inr rfl
      · exact .inl hx
  | keep _ =>
      refine ⟨by simp, .inl ?_⟩
      simpa [RunPc.polled, or_comm] using hx
  | user hc => exact ⟨hc.not_waitSignal, .inl hx⟩
  | cancelled _ => exact ⟨by simp, .inl (List.mem_cons_of_mem _ hx)⟩
  | ready => exact ⟨by simp, .inl (List.mem_cons_of_mem _ hx)⟩
  | panics => exact ⟨by simp, .inl (List.mem_cons_of_mem _ hx)⟩
  | _ => exact ⟨by simp, .inl hx⟩

/-- A worker with a future that was polled was made. -/
theorem Reachable.polled_lt_count (h : Reachable s) {x : Task} (hx : x ∈ (run s g).polled) :
    g < s.mem.count := by
  refine h.lt_count fun hr => ?_
  rw [hr] at hx
  cases hx

theorem Heard.step (hh : Heard s g) (h : Reachable s) (hs : s.step a = some s') :
    Heard s' g := by
  intro x hx hu
  rcases h.step_run g hs with ⟨o, -, hrun, -, hm⟩ | ⟨o, hne, hpre, hrun, -, hm⟩
  · rw [hm] at hu ⊢
    obtain ⟨ho, hx | rfl⟩ := hrun.polled hx
    · exact Op.hears (h.polled_lt_count hx) ho (hh x hx) hu
    · simp [Op.exec] at hu
  · rw [hm] at hu ⊢
    rw [hrun] at hx
    exact Op.hears (h.polled_lt_count hx) (hpre.not_waitSignal hne) (hh x hx) hu

/-- A loop begins to wait when its channel is empty. -/
theorem RunStep.toWait {p : RunPc P} {futures : List Task}
    (h : RunStep g m p (.wait futures) o) : o = .tau ∧ (m.workers g).channel = [] := by
  cases h with
  | sleep hc => exact ⟨rfl, hc⟩

/-- A task whose send has woken the worker was sent before. -/
theorem Op.delivers (h : (g, t) ∈ (o.exec m).delivered) :
    (g, t) ∈ m.delivered ∨ o = .wakeSend g t := by
  by_cases ho : ∃ k u, o = .wakeSend k u
  · obtain ⟨k, u, rfl⟩ := ho
    rcases List.mem_cons.mp h with he | h
    · obtain ⟨rfl, rfl⟩ := Prod.mk.inj he
      exact .inr rfl
    · exact .inl h
  · rw [Op.exec_delivered fun k u he => ho ⟨k, u, he⟩] at h
    exact .inl h

theorem Noticed.step (hn : Noticed s g) (h : Reachable s) (hs : s.step a = some s') :
    Noticed s' g := by
  intro futures hw x hx hd
  rcases h.step_run g hs with ⟨o, -, hrun, -, hm⟩ | ⟨o, hne, hpre, hrun, -, hm⟩
  · rw [hw] at hrun
    obtain ⟨rfl, hc⟩ := hrun.toWait
    have hx' : x ∈ (s.mem.workers g).channel := by
      rw [hm] at hx
      exact hx
    simp [hc] at hx'
  · rw [hrun] at hw
    have hlt : g < s.mem.count := h.lt_count (by simp [hw])
    rw [hm] at hx hd ⊢
    rcases Op.delivers hd with hd | rfl
    · refine o.keepsUp hlt (hpre.not_waitSignal hne) ?_
      rcases Op.channel h.inv (hpre.not_recv hne) with hc | ⟨y, b, rfl, hc⟩
      · exact hn futures hw x (hc ▸ hx) hd
      · rw [hc, List.mem_append, List.mem_singleton] at hx
        rcases hx with hx | rfl
        · exact hn futures hw x hx hd
        · exact absurd hd (hpre.1.delivered g)
    · simp [Op.exec]

/-! ## `await_sync` -/

/-- The future of an `await_sync` was polled since its last wait. -/
def AwaitPc.polled : AwaitPc → Bool
  | .poll _ | .wait => true
  | _ => false

/-- What an operation does to the signal of an `await_sync`. -/
theorem Op.keepsUp_await (ho : o ≠ .waitAwait f) (hr : (m.awaits f).signal.ready = true) :
    ((o.exec m).awaits f).signal.ready = true := by
  have modify : ∀ (k : AwaitId) (u : Await → Await),
      (k = f → (u (m.awaits f)).signal.ready = true) →
        ((m.modifyAwait k u).awaits f).signal.ready = true := by
    intro k u hk
    by_cases he : k = f
    · subst he
      simpa [Shared.modifyAwait] using hk rfl
    · simpa [Shared.modifyAwait, Function.update_of_ne (Ne.symm he)] using hr
  cases o with
  | callAwait k => exact modify k (fun w => { w with called := true }) fun _ => hr
  | returnAwait k => exact modify k (fun w => { w with returned := true }) fun _ => hr
  | waitAwait k =>
      exact modify k (fun w => { w with signal := { w.signal with ready := false } })
        fun he => absurd (he ▸ rfl) ho
  | wake u =>
      cases u with
      | task k t => exact hr
      | awaited k =>
          exact modify k (fun w => { w with signal := w.signal.wake.1 }) fun _ => rfl
  | _ => exact hr

/-- If the waker of an `await_sync` was invoked since the poll began, the flag is up. -/
def HeardAwait (s : (main P).State) (f : AwaitId) : Prop :=
  (await s f).polled = true → s.mem.woken (.awaited f) = true →
    (s.mem.awaits f).signal.ready = true

/-- An `await_sync` whose future was polled had it polled before the step, or its poll
begins. -/
theorem AwaitStep.polled {p p' : AwaitPc} (h : AwaitStep f m p p' o) (hp : p'.polled = true) :
    o ≠ .waitAwait f ∧ (p.polled = true ∨ o = .poll (.awaited f)) := by
  cases h with
  | poll => exact ⟨by simp, .inr rfl⟩
  | pending => exact ⟨by simp, .inl rfl⟩
  | user hc =>
      refine ⟨?_, .inl rfl⟩
      cases hc <;> simp
  | _ => cases hp

theorem HeardAwait.step (hh : HeardAwait s f) (h : Reachable s) (hs : s.step a = some s') :
    HeardAwait s' f := by
  intro hp hu
  obtain ⟨q, o, hn, hpre, rfl⟩ := h.step_cases hs
  have hup : o ≠ .waitAwait f → (await s f).polled = true →
      (o.exec s.mem).woken (.awaited f) = true →
        ((o.exec s.mem).awaits f).signal.ready = true := by
    intro ho hp hu
    rcases Op.woken hu with ⟨hu, -⟩ | rfl
    · exact Op.keepsUp_await ho (hh hp hu)
    · simp [Op.exec, Shared.wakeAwaits]
  by_cases hf : a.tid = .await f
  · obtain ⟨i, c⟩ := a
    cases hf
    have hstep : AwaitStep f s.mem (await s f) q o := hn
    have hq : await (s.move (.await f) q o) f = q := await_move s o f q
    obtain ⟨ho, hp | rfl⟩ := hstep.polled (hq ▸ hp)
    · exact hup ho hp hu
    · have hu' : ((Op.poll (.awaited f)).exec s.mem).woken (.awaited f) = true := hu
      simp [Op.exec] at hu'
  · have hq : await (s.move a.tid q o) f = await s f := await_move_of_ne s o (Ne.symm hf) q
    refine hup ?_ (hq ▸ hp) hu
    intro ho
    subst ho
    exact hf hpre

/-! ## The result -/

/-- Who waits with the flag of the signal down has polled its futures since their
wakers were invoked last, and received the tasks whose sends have woken it. -/
structure Attentive (s : (main P).State) : Prop where
  futures : ∀ g futures, run s g = .wait futures → (s.mem.workers g).signal.ready = false →
    ∀ x ∈ futures, s.mem.woken (.task g x.id) = false
  tasks : ∀ g futures, run s g = .wait futures → (s.mem.workers g).signal.ready = false →
    ∀ t, (g, t) ∈ s.mem.delivered → ∀ x ∈ (s.mem.workers g).channel, x.id ≠ t
  awaits : ∀ f, await s f = .wait → (s.mem.awaits f).signal.ready = false →
    s.mem.woken (.awaited f) = false

/-- No wake-up is slept through in a reachable state. -/
theorem attentive (s : (main P).State) (h : Reachable s) : Attentive s where
  futures := by
    intro g futures hw hr x hx
    have hh : Heard s g := by
      refine h.invariant (I := fun s => Heard s g) (fun x hx => by cases hx) ?_
      exact fun _ hr hh hs _ => hh.step hr hs
    refine Bool.eq_false_iff.mpr fun hu => ?_
    simp [hh x (by simpa [hw, RunPc.polled] using hx) hu] at hr
  tasks := by
    intro g futures hw hr t ht x hx he
    subst he
    have hn : Noticed s g := by
      refine h.invariant (I := fun s => Noticed s g) (fun futures hw => by cases hw) ?_
      exact fun _ hr hn hs _ => hn.step hr hs
    simp [hn futures hw x hx ht] at hr
  awaits := by
    intro f hw hr
    have hh : HeardAwait s f := by
      refine h.invariant (I := fun s => HeardAwait s f) (fun hp => by cases hp) ?_
      exact fun _ hr hh hs _ => hh.step hr hs
    refine Bool.eq_false_iff.mpr fun hu => ?_
    simp [hh (by rw [hw]; rfl) hu] at hr

/-- A worker whose future is pending twice.  The first wait ends at once, because the
send has raised the flag. -/
def pendingSchedule : List (main Empty).Action :=
  calls 0 (.registerMainThread (function 0) false) 8 ++ List.replicate 15 ⟨.run 0, .pending⟩

theorem attentive_pendingRun : Attentive ((init : (main Empty).State).after pendingSchedule) :=
  attentive _ (.after pendingSchedule .init)

example : run (init.after pendingSchedule) 0 = .wait [function 0] := by decide

example : ((init.after pendingSchedule).mem.workers 0).signal.ready = false := by decide

end MVSync.Main
