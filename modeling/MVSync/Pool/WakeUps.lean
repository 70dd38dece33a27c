import MVSync.Pool.Threads

/-!
# Wake-ups of the dispatcher

The dispatcher sleeps on the queue signal.  A thread that changes something the
dispatcher may wait for wakes that signal afterwards: a submitter when all its
tasks are sent, and a thread that settles a task at the end of its settling
site.  Until then it owes the wake-up.

A wake-up that is on its way stays on its way until the dispatcher takes it
(`WakeComes.step`).  What nobody owes a wake-up for did not change
(`workerNext_guards`, `callerNext_guards`).
-/

namespace MVSync

open Concurrency

variable {V P : Type} {cfg : Specs} {prog : Program V P} {m m' : Shared V P} {op : Op V P}
  {x : Task} {t : TaskId}

/-! ## Who owes a wake-up -/

/-- The dispatcher settles a task. -/
def DispatcherPc.owes : DispatcherPc P → Bool
  | .settle x _ _ _ _ => x.home
  | _ => false

/-- The worker has written the outcome of a task, and settles it. -/
def WorkerPc.owes : WorkerPc V P → Bool
  | .readyArm x _ _ | .settle x _ _ _ _ => x.home
  | _ => false

/-- The caller is in a submit call and has sent a task. -/
def CallerPc.owes : CallerPc V P → Bool
  | .sending sent _ => sent
  | _ => false

/-- The dispatcher left its loop. -/
def DispatcherPc.over : DispatcherPc P → Bool
  | .exited | .panicked => true
  | _ => false

/-- A settling site ends with the wake-up that it owes. -/
theorem settleNext_owes {site : Site} {sp : SettlePc} (hx : x.home = true)
    (h : settleNext x site sp = (none, op)) : (op.exec m).queueSignal.ready = true := by
  unfold settleNext at h
  split at h
  all_goals cases h
  simp [Op.exec, hx]

/-- The dispatcher goes on to wake itself. -/
theorem dispatcherNext_owes {p p' : DispatcherPc P} (hp : p.owes = true)
    (h : dispatcherNext cfg p m = some (p', op)) :
    p'.owes = true ∨ (op.exec m).queueSignal.ready = true := by
  cases dispatcherNext_step h with
  | settle => exact .inl hp
  | settled hs => exact .inr (settleNext_owes hp hs)
  | _ => cases hp

/-- A worker goes on to the wake-up that it owes. -/
theorem workerNext_owes {w : WorkerId} {pends : Bool} {p p' : WorkerPc V P} (hp : p.owes = true)
    (h : workerNext prog w pends p m = some (p', op)) :
    p'.owes = true ∨ (op.exec m).queueSignal.ready = true := by
  cases workerNext_step h with
  | readyArm | settle => exact .inl hp
  | settled hs => exact .inr (settleNext_owes hp hs)
  | _ => cases hp

/-- A submit call ends with a wake-up, unless the dispatcher is gone. -/
theorem callerNext_owes {e : CallerId} {c : CallerInput} {p p' : CallerPc V P}
    (hp : p.owes = true) (h : callerNext cfg prog e c p m = some (p', op)) :
    p'.owes = true ∨ (op.exec m).queueSignal.ready = true ∨ m.dispatcherAlive = false := by
  cases callerNext_step h with
  | endSubmit => exact .inr (.inl rfl)
  | send => exact .inl rfl
  | failSubmit hd => exact .inr (.inr hd)
  | _ => cases hp

/-! ## The dispatcher is alive -/

/-- The dispatcher drops the receiver when it leaves its loop. -/
theorem dispatcherNext_over {p p' : DispatcherPc P}
    (h : dispatcherNext cfg p m = some (p', op)) :
    p'.over = true ∨ op ≠ .exitDispatcher ∧ op ≠ .dropDispatcher := by
  have settle : op.ofFuture = true → op ≠ .exitDispatcher ∧ op ≠ .dropDispatcher := by
    intro ho
    constructor <;> rintro rfl <;> cases ho
  cases dispatcherNext_step h with
  | exit => exact .inl rfl
  | panic => exact .inl rfl
  | settle hs => exact .inr (settle (settleNext_ofFuture hs))
  | settled hs => exact .inr (settle (settleNext_ofFuture hs))
  | _ => exact .inr (by simp)

/-- The dispatcher takes a wake-up in its `signal.wait()`. -/
theorem dispatcherNext_wait {p p' : DispatcherPc P}
    (h : dispatcherNext cfg p m = some (p', .waitQueueSignal)) :
    ∃ xs, p = .wait xs ∧ p' = .top xs := by
  cases dispatcherNext_step h with
  | wake _ => exact ⟨_, rfl, rfl⟩
  | settle hs => cases settleNext_ofFuture hs
  | settled hs => cases settleNext_ofFuture hs

namespace Pool

variable {s s' : (pool cfg prog).State} {a : (pool cfg prog).Action}

/-- The dispatcher holds the receiver as long as it is in its loop. -/
theorem Reachable.alive (h : Reachable s) :
    s.mem.dispatcherAlive = true ∨ (Pool.dispatcher s).over = true := by
  refine h.thread_invariant (i := .dispatcher)
    (I := fun (d : DispatcherPc P) m => m.dispatcherAlive = true ∨ d.over = true) (.inl rfl) ?_ ?_
  · intro s c q o hr hn hi
    rcases dispatcherNext_over hn with hq | ⟨ho, ho'⟩
    · exact .inr hq
    · rcases hi with hi | hi
      · exact .inl ((Op.dispatcherAlive_eq ho ho').trans hi)
      · have hn : dispatcherNext cfg (Pool.dispatcher s) s.mem = some (q, o) := hn
        have hi : (Pool.dispatcher s).over = true := hi
        cases hd : Pool.dispatcher s <;> rw [hd] at hi hn <;> cases hi <;> cases hn
  · intro s s' a d hr ha hs hi
    obtain ⟨q, o, hn, rfl⟩ := System.State.step_cases hs
    have hpre : o.Pre prog a.tid s.mem := Reachable.pre hr hn
    refine hi.imp_left fun hi => (Op.dispatcherAlive_eq ?_ ?_).trans hi
    · rintro rfl
      exact ha hpre
    · rintro rfl
      exact ha hpre.1

/-! ## Wake-ups stay on their way -/

/-- Thread `i` owes the dispatcher a wake-up. -/
def Owes (s : (pool cfg prog).State) : Tid → Prop
  | .dispatcher => (dispatcher s).owes = true
  | .worker w => (worker s w).owes = true
  | .caller e => (caller s e).owes = true

/-- The queue signal is up, or will be woken. -/
def WakeComes (s : (pool cfg prog).State) : Prop :=
  s.mem.queueSignal.ready = true ∨ ∃ i, Owes s i

theorem Owes.move_of_ne {i j : Tid} {q : Tid.Pc V P j} {o : Op V P} (h : Owes s i) (hij : i ≠ j) :
    Owes (s.move j q o) i := by
  have hpc : (s.move j q o).pc i = s.pc i := System.State.move_pc_of_ne s q o hij
  cases i with
  | dispatcher => simpa only [Owes, dispatcher, hpc] using h
  | worker w => simpa only [Owes, worker, hpc] using h
  | caller e => simpa only [Owes, caller, hpc] using h

/-- A thread that owes a wake-up goes on to wake the dispatcher, if that is still
there. -/
theorem Owes.move {i : Tid} {c : Tid.Input i} {q : Tid.Pc V P i} {o : Op V P} (h : Owes s i)
    (hn : (pool cfg prog).next i c (s.pc i) s.mem = some (q, o)) :
    WakeComes (s.move i q o) ∨ s.mem.dispatcherAlive = false ∧ .dispatcher ≠ i := by
  cases i with
  | dispatcher =>
      rcases dispatcherNext_owes h hn with hp | hp
      · exact .inl (.inr ⟨.dispatcher, by simpa [Owes] using hp⟩)
      · exact .inl (.inl hp)
  | worker w =>
      rcases workerNext_owes h hn with hp | hp
      · exact .inl (.inr ⟨.worker w, by simpa [Owes] using hp⟩)
      · exact .inl (.inl hp)
  | caller e =>
      rcases callerNext_owes h hn with hp | hp | hp
      · exact .inl (.inr ⟨.caller e, by simpa [Owes] using hp⟩)
      · exact .inl (.inl hp)
      · exact .inr ⟨hp, nofun⟩

/-- A wake-up comes until the dispatcher takes it. -/
theorem WakeComes.step (h : WakeComes s) (hr : Reachable s) (hs : s.step a = some s') :
    WakeComes s' ∨ (dispatcher s').over = true ∨
      ∃ xs, dispatcher s = .wait xs ∧ dispatcher s' = .top xs := by
  obtain ⟨q, o, hn, rfl⟩ := System.State.step_cases hs
  have hpre : o.Pre prog a.tid s.mem := hr.pre hn
  obtain ⟨i, c⟩ := a
  rcases h with hq | ⟨j, hj⟩
  · by_cases ho : o = .waitQueueSignal
    · subst ho
      obtain rfl : i = .dispatcher := hpre
      have hd : dispatcher (s.move .dispatcher q .waitQueueSignal) = q := dispatcher_move _ _ _
      obtain ⟨xs, hp, hp'⟩ := dispatcherNext_wait hn
      exact .inr (.inr ⟨xs, hp, hd.trans hp'⟩)
    · exact .inl (.inl (Op.queueSignal_ready hq ho))
  · by_cases hij : j = i
    · subst hij
      rcases hj.move hn with hw | ⟨hd, hne⟩
      · exact .inl hw
      · have hpc : dispatcher (s.move j q o) = dispatcher s := System.State.move_pc_of_ne s q o hne
        have hover := hr.alive.resolve_left (by simp [hd])
        exact .inr (.inl (by rw [hpc, hover]))
    · exact .inl (.inr ⟨j, hj.move_of_ne hij⟩)

end Pool

/-! ## Pools with threads -/

/-- With threads, no caller runs tasks itself. -/
theorem callerNext_pass (hc : cfg.threadCount ≠ 0) {e : CallerId} {c : CallerInput}
    {p p' : CallerPc V P} (hp : p.pass = none) (h : callerNext cfg prog e c p m = some (p', op)) :
    p'.pass = none := by
  cases callerNext_step h with
  | inline _ _ hn => exact absurd hn hc
  | @wake _ k | @polled _ k => cases k <;> rfl
  | _ => first | rfl | cases hp

theorem Pool.Reachable.pass_eq_none (hc : cfg.threadCount ≠ 0) {s : (pool cfg prog).State}
    (h : Reachable s) (e : CallerId) : (Pool.caller s e).pass = none := by
  refine h.pc_invariant (i := .caller e) (I := fun p : CallerPc V P => p.pass = none) rfl ?_
  intro c p p' o m hn hi
  exact callerNext_pass hc hi hn

end MVSync
