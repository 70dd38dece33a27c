import MVSync.Pool.Sleep

/-!
# Who looks again

A thread passes over a task when it has looked at its state for the last time in
the current turn of its loop: the dispatcher when it puts the task back, a
worker when it keeps the future.  It looks again after the next wake-up only.

`cancel` wakes nobody.  So the step that cancels a task which its thread has
passed over, and the step of the dispatcher that puts a cancelled task back
because its guards are closed, can leave the task to a thread that sleeps.
`Pool.Heard` is the condition that neither happens, and `Pool.Attends.step` says
that then a thread never sleeps on a cancelled task.
-/

namespace MVSync

open Concurrency Pool

variable {V P : Type} {cfg : Specs} {prog : Program V P} {m m' : Shared V P} {op : Op V P}
  {x : Task} {t : TaskId} {w : WorkerId}

/-! ## What is passed over -/

/-- The tasks that the dispatcher put back, and the one that it found not
cancelled. -/
def DispatcherPc.passed : DispatcherPc P → List TaskId
  | .select x _ _ _ remaining | .freeWorkers x _ _ remaining => x.id :: remaining.map Task.id
  | .wait xs => xs.map Task.id
  | .scan _ remaining | .fetchSub _ _ remaining | .wakeWorker _ _ remaining
  | .canExecute _ _ _ remaining | .isPanicked _ _ remaining | .getPanic _ _ remaining
  | .isCancelled _ _ remaining | .isCancelledSelf _ _ remaining
  | .replace _ _ _ _ _ remaining | .send _ _ _ remaining
  | .settle _ _ _ _ remaining => remaining.map Task.id
  | .top _ | .exited | .panicked => []

/-- The task that the dispatcher is about to put back since a semaphore is not
signalled or the predecessor is pending. -/
def DispatcherPc.refuses (m : Shared V P) : DispatcherPc P → Option Task
  | .canExecute x (s :: _) _ _ => if m.sem s then none else some x
  | .canExecute x [] _ _ => if m.predState x != .pending then none else some x
  | _ => none

/-- The tasks whose futures the worker keeps. -/
def WorkerPc.passed : WorkerPc V P → List TaskId
  | .check fs | .wait fs => fs.map fun f => f.task.id
  | .retain kept _ | .poll _ _ kept _ | .pendingArm _ _ kept _ | .errArm _ _ kept _
  | .readyArm _ kept _ | .settle _ _ _ kept _ => kept.map fun f => f.task.id
  | .top _ | .exited => []

/-- The worker is about to empty its channel, or left its loop. -/
def WorkerPc.drains : WorkerPc V P → Bool
  | .top (_ :: _) | .exited => true
  | _ => false

/-- Until its future ends, a task is cancelled exactly when `cancel` was
called. -/
theorem CellOk.cancelled_iff {c : Cell V P} (h : CellOk prog t c)
    (hs : c.stage = .fresh ∨ ∃ v, c.stage = .running v) :
    c.state = .cancelled ↔ c.cancelled = true := by
  have ho : c.Open := by
    unfold CellOk at h
    rcases hs with hs | ⟨v, hs⟩ <;> rw [hs] at h <;> exact h.1
  rcases ho.state with ⟨hs, hc⟩ | ⟨hs, hc⟩ <;> simp [hs, hc]

/-- The dispatcher has not found the task executable that it puts back. -/
theorem DispatcherPc.Loc.stage_of_refuses {p : DispatcherPc P} (hk : p.Loc prog m)
    (h : p.refuses m = some x) : (m.cell x.id).stage = .fresh := by
  cases p with
  | canExecute y ss todo remaining =>
      have hy : x = y := by
        cases ss <;> simp only [DispatcherPc.refuses] at h <;> split at h <;> cases h <;> rfl
      exact hy ▸ hk.tasks.head_stage
  | _ => cases h

/-- The dispatcher passes over a task when it puts it back unread, or has just
found it not cancelled. -/
theorem dispatcherNext_passed {p p' : DispatcherPc P} (hi : Inv prog m) (hk : p.Loc prog m)
    (h : dispatcherNext cfg p m = some (p', op)) :
    ∀ t ∈ p'.passed, t ∈ p.passed ∨ (∃ x, p.refuses m = some x ∧ x.id = t) ∨
      (m.cell t).cancelled = false := by
  have self : ∀ {x : Task} {todo remaining : List Task}, p = .isCancelledSelf x todo remaining →
      (m.cell x.id).state ≠ .cancelled → (m.cell x.id).cancelled = false := by
    rintro x todo remaining rfl hx
    have hst := hk.tasks.head_stage
    rw [ne_eq, (hi.life.cell _).cancelled_iff (.inl hst)] at hx
    simpa using hx
  intro t ht
  cases dispatcherNext_step h with
  | pending hp | unsignalled hp =>
      simp only [DispatcherPc.passed, List.map_append, List.mem_append] at ht ⊢
      rcases ht with ht | ht
      · exact .inl ht
      · refine .inr (.inl ⟨_, ?_, (List.mem_singleton.mp ht).symm⟩)
        simp [DispatcherPc.refuses, hp]
  | _ =>
      simp only [DispatcherPc.passed, DispatcherPc.refuses] at ht self ⊢
      grind [Task.removePreferredThread, Task.clearNotOn]

/-- A worker passes over a task that it has just found not cancelled. -/
theorem workerNext_passed {pends : Bool} {p p' : WorkerPc V P} (hi : Inv prog m)
    (hk : p.Loc prog w m) (h : workerNext prog w pends p m = some (p', op)) :
    ∀ t ∈ p'.passed, t ∈ p.passed ∨ (m.cell t).cancelled = false := by
  have arm : ∀ {x : Task} {v : Option V} {kept todo : List (Fut V)}, p = .pendingArm x v kept todo →
      (m.cell x.id).state ≠ .cancelled → (m.cell x.id).cancelled = false := by
    rintro x v kept todo rfl hx
    have hst := hk.tasks.head_stage
    rw [ne_eq, (hi.life.cell _).cancelled_iff (.inr ⟨v, hst⟩)] at hx
    simpa using hx
  intro t ht
  cases workerNext_step h
  all_goals simp only [WorkerPc.passed] at ht arm ⊢
  all_goals grind

/-! ## Wake-ups of a worker -/

/-- A send ends with the wake-up of the worker. -/
theorem dispatcherNext_sendsTo {p p' : DispatcherPc P} (hp : p.sendsTo w)
    (h : dispatcherNext cfg p m = some (p', op)) :
    p'.sendsTo w ∨ ((op.exec m).workerSignal w).ready = true := by
  cases p with
  | send x v todo remaining | fetchSub v todo remaining =>
      obtain ⟨rfl, -⟩ := Prod.mk.inj (Option.some.inj h)
      exact .inl hp
  | wakeWorker v todo remaining =>
      obtain ⟨-, rfl⟩ := Prod.mk.inj (Option.some.inj h)
      obtain rfl : v = w := hp
      exact .inr (by simp [Op.exec])
  | _ => exact hp.elim

/-- A worker takes a wake-up in its `signal.wait()`. -/
theorem workerNext_wait {v : WorkerId} {pends : Bool} {p p' : WorkerPc V P}
    (h : workerNext prog v pends p m = some (p', .waitWorkerSignal w)) :
    ∃ fs, p = .wait fs ∧ p' = .top fs := by
  cases workerNext_step h with
  | wake => exact ⟨_, rfl, rfl⟩
  | more hp | pending hp | err hp | ready hp => cases pollNext_ofFuture hp
  | settle hs | settled hs => cases settleNext_ofFuture hs

/-- A worker sleeps on some futures only. -/
theorem workerNext_to_wait {pends : Bool} {p : WorkerPc V P} {fs : List (Fut V)}
    (h : workerNext prog w pends p m = some (.wait fs, op)) : fs ≠ [] := by
  cases workerNext_step h with
  | sleep => exact List.cons_ne_nil _ _

/-! ## What a thread still looks at -/

/-- The dispatcher takes in tasks until there are none. -/
theorem dispatcherNext_drains {p p' : DispatcherPc P} (hp : p.drains = true)
    (h : dispatcherNext cfg p m = some (p', op)) :
    p'.drains = true ∨ (op.exec m).channel = [] := by
  cases dispatcherNext_step h with
  | tryRecv => exact .inl rfl
  | received hc => exact .inr hc
  | _ => cases hp

/-- A worker takes in tasks until there are none. -/
theorem workerNext_drains {pends : Bool} {p p' : WorkerPc V P} (hp : p.drains = true)
    (h : workerNext prog w pends p m = some (p', op)) :
    p'.drains = true ∨ (op.exec m).workerChannel w = [] := by
  cases workerNext_step h with
  | tryRecv => exact .inl rfl
  | received hc => exact .inr hc
  | _ => cases hp

namespace Pool

variable {s s' : (pool cfg prog).State} {a : (pool cfg prog).Action} {i : Tid}

/-- The tasks that a thread has passed over. -/
def passed (s : (pool cfg prog).State) : Tid → List TaskId
  | .dispatcher => (dispatcher s).passed
  | .worker w => (worker s w).passed
  | .caller _ => []

/-- The channel that a thread receives tasks from. -/
def inbox (s : (pool cfg prog).State) : Tid → List Task
  | .dispatcher => s.mem.channel
  | .worker w => s.mem.workerChannel w
  | .caller _ => []

/-- The signal that a thread sleeps on is up, or will be woken. -/
def WakesUp (s : (pool cfg prog).State) : Tid → Prop
  | .dispatcher => WakeComes s
  | .worker w => (s.mem.workerSignal w).ready = true ∨ (dispatcher s).sendsTo w
  | .caller _ => False

/-- The thread is about to empty its channel, or left its loop. -/
def Draining (s : (pool cfg prog).State) : Tid → Prop
  | .dispatcher => (dispatcher s).drains = true
  | .worker w => (worker s w).drains = true
  | .caller _ => False

/-- A thread with tasks to receive, or that has passed over a task on which
`cancel` was called, does not go to sleep. -/
structure Attends (s : (pool cfg prog).State) (i : Tid) : Prop where
  inbox : inbox s i = [] ∨ WakesUp s i ∨ Draining s i
  cancelled : ∀ t ∈ passed s i, (s.mem.cell t).cancelled = true → WakesUp s i

/-- A task is cancelled only when its thread still looks at it or will be woken,
and the dispatcher puts a cancelled task back only when it will be woken. -/
structure Heard (s : (pool cfg prog).State) (a : (pool cfg prog).Action) : Prop where
  cancel : ∀ e t, a = call e (.cancel t) → ∀ i, t ∈ passed s i → WakesUp s i
  refused : ∀ x, a = dispatch → (dispatcher s).refuses s.mem = some x →
    (s.mem.cell x.id).state = .cancelled → WakeComes s

theorem Reachable.worker_wait_ne_nil (h : Reachable s) {fs : List (Fut V)}
    (hw : Pool.worker s w = .wait fs) : fs ≠ [] := by
  refine h.pc_invariant (i := .worker w)
    (I := fun p : WorkerPc V P => ∀ fs, p = .wait fs → fs ≠ []) (by rintro _ ⟨⟩) ?_ fs hw
  rintro c p p' o m hn - fs rfl
  exact workerNext_to_wait hn

/-! ## One step -/

section

variable {j : Tid} {q : Tid.Pc V P j} {o : Op V P}

theorem passed_move_of_ne (h : i ≠ j) : passed (s.move j q o) i = passed s i := by
  have hpc : (s.move j q o).pc i = s.pc i := System.State.move_pc_of_ne s q o h
  cases i <;> simp only [passed, Pool.dispatcher, Pool.worker, hpc]

theorem draining_move_of_ne (h : i ≠ j) : Draining (s.move j q o) i ↔ Draining s i := by
  have hpc : (s.move j q o).pc i = s.pc i := System.State.move_pc_of_ne s q o h
  cases i <;> simp only [Draining, Pool.dispatcher, Pool.worker, hpc]

end

/-- A thread that left its pass has passed over nothing. -/
theorem Draining.passed (h : Draining s i) : passed s i = [] := by
  cases i with
  | dispatcher =>
      simp only [Draining] at h
      simp only [Pool.passed]
      cases hd : Pool.dispatcher s <;> rw [hd] at h <;> first | rfl | cases h
  | worker w =>
      simp only [Draining] at h
      simp only [Pool.passed]
      cases hd : Pool.worker s w <;> rw [hd] at h <;> first | rfl | cases h
  | caller e => exact h.elim

/-- A wake-up stays on its way until the thread takes it. -/
theorem WakesUp.step (h : WakesUp s i) (hr : Reachable s) (hs : s.step a = some s') :
    WakesUp s' i ∨ Draining s' i := by
  cases i with
  | dispatcher =>
      rcases WakeComes.step h hr hs with hw | ho | ⟨xs, hd, hd'⟩
      · exact .inl hw
      · right
        simp only [Draining]
        cases hd : Pool.dispatcher s' <;> rw [hd] at ho <;> first | rfl | cases ho
      · right
        obtain ⟨x, xs, rfl⟩ := List.exists_cons_of_ne_nil (hr.wait_ne_nil hd)
        simp [Draining, hd', DispatcherPc.drains]
  | worker w =>
      rcases h with h | h
      · obtain ⟨q, o, hn, rfl⟩ := System.State.step_cases hs
        have hpre : o.Pre prog a.tid s.mem := hr.pre hn
        by_cases ho : o = .waitWorkerSignal w
        · subst ho
          obtain ⟨i, c⟩ := a
          obtain rfl : i = .worker w := hpre
          obtain ⟨fs, hp, rfl⟩ := workerNext_wait hn
          obtain ⟨f, fs, rfl⟩ := List.exists_cons_of_ne_nil (hr.worker_wait_ne_nil hp)
          exact .inr (by simp [Draining, WorkerPc.drains])
        · exact .inl (.inl (Op.workerSignal_ready h ho))
      · rcases step_cases hs with ⟨q, o, rfl, hn, rfl⟩ | ⟨v, pends, q, o, rfl, hn, rfl⟩ |
          ⟨e, c, q, o, rfl, hn, rfl⟩
        · rcases dispatcherNext_sendsTo h hn with hp | hp
          · exact .inl (.inr (by rwa [dispatcher_move]))
          · exact .inl (.inl hp)
        · exact .inl (.inr (by rwa [dispatcher_move_worker]))
        · exact .inl (.inr (by rwa [dispatcher_move_caller]))
  | caller e => exact h.elim

/-- A thread that empties its channel goes on until it is empty. -/
theorem Draining.step (h : Draining s i) (hs : s.step a = some s') :
    Draining s' i ∨ inbox s' i = [] := by
  obtain ⟨q, o, hn, rfl⟩ := System.State.step_cases hs
  by_cases hi : i = a.tid
  · obtain ⟨j, c⟩ := a
    obtain rfl : i = j := hi
    cases i with
    | dispatcher =>
        have hd : Pool.dispatcher (s.move .dispatcher q o) = q := dispatcher_move s o q
        exact (dispatcherNext_drains h hn).imp_left fun hq => (congrArg _ hd).trans hq
    | worker w =>
        have hw : Pool.worker (s.move (.worker w) q o) w = q := worker_move s o w q
        exact (workerNext_drains h hn).imp_left fun hq => (congrArg _ hw).trans hq
    | caller e => exact h.elim
  · exact .inl ((draining_move_of_ne hi).mpr h)

/-- Who adds to an empty channel wakes its receiver. -/
theorem inbox_step (h : inbox s i = []) (hr : Reachable s) (hs : s.step a = some s') :
    inbox s' i = [] ∨ WakesUp s' i := by
  by_contra hne
  obtain ⟨hne, hw⟩ := not_or.mp hne
  obtain ⟨y, hy⟩ := List.exists_mem_of_ne_nil _ hne
  obtain ⟨q, o, hn, rfl⟩ := System.State.step_cases hs
  have hpre : o.Pre prog a.tid s.mem := hr.pre hn
  obtain ⟨j, c⟩ := a
  cases i with
  | dispatcher =>
      obtain rfl := (Op.mem_channel hy).resolve_left (by simp [show s.mem.channel = [] from h])
      obtain ⟨⟨e, rfl⟩, -⟩ := hpre
      rcases callerNext_sends hn with ⟨sent, y', xs, -, rfl, -⟩ | ⟨ho, -⟩
      · exact hw (.inr ⟨.caller e, by simp [Owes, CallerPc.owes]⟩)
      · exact ho y rfl
  | worker w =>
      obtain rfl := (Op.mem_workerChannel hy).resolve_left
        (by simp [show s.mem.workerChannel w = [] from h])
      obtain ⟨rfl, -⟩ := hpre
      have hd : Pool.dispatcher (s.move .dispatcher q (.sendWorker w y)) = q :=
        dispatcher_move _ _ _
      obtain ⟨todo, remaining, -, rfl⟩ := dispatcherNext_sendWorker hn
      exact hw (.inr (by rw [hd]; exact rfl))
  | caller e => cases hy

/-- A cancelled task that a thread has just passed over was cancelled before its
thread read its state, or is put back by the dispatcher. -/
theorem passed_step (hr : Reachable s) (hs : s.step a = some s') (ht : t ∈ passed s' i) :
    t ∈ passed s i ∨ (s.mem.cell t).cancelled = false ∧ cancels a = false ∨
      i = .dispatcher ∧ a = dispatch ∧
        ∃ x, (dispatcher s).refuses s.mem = some x ∧ x.id = t := by
  rcases step_cases hs with ⟨q, o, rfl, hn, rfl⟩ | ⟨v, pends, q, o, rfl, hn, rfl⟩ |
    ⟨e, c, q, o, rfl, hn, rfl⟩
  · by_cases hi : i = .dispatcher
    · subst hi
      have ht' : t ∈ q.passed := by simpa [passed] using ht
      rcases dispatcherNext_passed hr.inv hr.dispatcher hn t ht' with hp | hx | hc
      · exact .inl hp
      · exact .inr (.inr ⟨rfl, rfl, hx⟩)
      · exact .inr (.inl ⟨hc, rfl⟩)
    · exact .inl (passed_move_of_ne hi ▸ ht)
  · by_cases hi : i = .worker v
    · subst hi
      have ht' : t ∈ q.passed := by simpa [passed] using ht
      rcases workerNext_passed hr.inv (hr.worker v) hn t ht' with hp | hc
      · exact .inl hp
      · exact .inr (.inl ⟨hc, rfl⟩)
    · exact .inl (passed_move_of_ne hi ▸ ht)
  · by_cases hi : i = .caller e
    · subst hi
      cases ht
    · exact .inl (passed_move_of_ne hi ▸ ht)

/-- A thread that hears of every cancelled task attends to what it has. -/
theorem Attends.step (h : Attends s i) (hr : Reachable s) (hok : Heard s a)
    (hs : s.step a = some s') : Attends s' i where
  inbox := by
    rcases h.inbox with hb | hw | hd
    · exact (inbox_step hb hr hs).imp_right .inl
    · exact .inr (hw.step hr hs)
    · rcases hd.step hs with hd | hb
      · exact .inr (.inr hd)
      · exact .inl hb
  cancelled t ht hc := by
    have keep : WakesUp s i → WakesUp s' i := by
      intro hw
      refine (hw.step hr hs).resolve_right fun hd => ?_
      rw [hd.passed] at ht
      cases ht
    rcases cancelled_cases hs t with he | ⟨e, rfl⟩
    · rw [he] at hc
      rcases passed_step hr hs ht with hp | ⟨hf, -⟩ | ⟨rfl, rfl, x, hx, rfl⟩
      · exact keep (h.cancelled t hp hc)
      · simp [hf] at hc
      · have hst := DispatcherPc.Loc.stage_of_refuses hr.dispatcher hx
        exact keep (hok.refused x rfl hx (((hr.inv.life.cell _).cancelled_iff (.inl hst)).mpr hc))
    · rcases passed_step hr hs ht with hp | ⟨-, hf⟩ | ⟨-, hf, -⟩
      · exact keep (hok.cancel e t rfl i hp)
      · cases hf
      · cases hf

end Pool

end MVSync
