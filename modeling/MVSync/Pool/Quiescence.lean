import MVSync.Pool.Attention

/-!
# Cancelled tasks are settled

In a quiescent state every thread of the pool sleeps and no task is being
submitted.  A submitted task whose completion signal was not woken is then with
the dispatcher or with a worker, which passed over it (`Quiescent.passed`).  So
if every `cancel` was heard, no such task is cancelled
(`Pool.cancelled_settled`).

`cancel` wakes nobody, and in a quiescent state that is the end of it: a task
that is cancelled there stays as it is.
-/

namespace MVSync

open Concurrency Pool

variable {V P : Type} {cfg : Specs} {prog : Program V P} {m m' : Shared V P} {op : Op V P}
  {t : TaskId} {w : WorkerId}

/-! ## Where a submitted task is -/

/-- The operations by which a caller drops tasks. -/
def Op.drops : Op V P → Bool
  | .dropTask _ | .dropCaller _ | .failSubmit _ => true
  | _ => false

/-- With threads, a caller drops its tasks when the dispatcher is gone or a panic
unwinds, and a panic finds it without tasks. -/
theorem callerNext_drops {e : CallerId} {c : CallerInput} {p p' : CallerPc V P}
    (hp : p.pass = none) (h : callerNext cfg prog e c p m = some (p', op)) :
    (op.drops = true → m.dispatcherAlive = false ∨ ∃ q, p = .unwind q) ∧
      ∀ q, p' = .unwind q → op = .tau ∧ p.tasks = some [] := by
  have rest : op.drops = false → p'.tasks ≠ none →
      (op.drops = true → m.dispatcherAlive = false ∨ ∃ q, p = .unwind q) ∧
        ∀ q, p' = .unwind q → op = .tau ∧ p.tasks = some [] := by
    intro hop ht
    refine ⟨by simp [hop], fun q hq => ?_⟩
    subst hq
    exact absurd rfl ht
  cases callerNext_step h with
  | failSubmit hd => exact ⟨fun _ => .inl hd, by simp⟩
  | unbound | takePending | takeNone => exact ⟨by simp [Op.drops], fun _ _ => ⟨rfl, rfl⟩⟩
  | @wake _ k | @polled _ k => exact rest rfl (by cases k <;> simp [Taker.resume, CallerPc.tasks])
  | unwind => exact ⟨fun _ => .inr ⟨_, rfl⟩, by simp⟩
  | _ => first | cases hp; done | exact rest rfl (by simp [CallerPc.tasks])

namespace Pool

variable {s s' : (pool cfg prog).State} {a : (pool cfg prog).Action}

/-- With threads, a panic of a caller drops no task. -/
theorem Reachable.unwind (hc : cfg.threadCount ≠ 0) (h : Reachable s) {e : CallerId}
    {r : Payload P} (hu : Pool.caller s e = .unwind r) :
    s.mem.Has prog (.thread (.caller e)) [] := by
  refine h.thread_invariant (i := .caller e) (I := fun (p : CallerPc V P) m => ∀ r, p = .unwind r →
    m.Has prog (.thread (.caller e)) []) (by rintro _ ⟨⟩) ?_ ?_ r hu
  · rintro s c p o hr hn - r rfl
    obtain ⟨rfl, ht⟩ := (callerNext_drops (Reachable.pass_eq_none hc hr e) hn).2 r rfl
    exact (Reachable.caller hr e).tasks [] ht
  · intro s s' a p hr ha hs hi r hu
    obtain ⟨o, ho, hmem⟩ := mem_of_step hs
    rw [hmem]
    exact (hi r hu).frame ((Reachable.inv hr).rely (Reachable.performs hr ho) (Ne.symm ha)).frame

/-- With threads, the tasks of a caller are the ones that it has not sent yet. -/
theorem Reachable.sending_of_owner (hc : cfg.threadCount ≠ 0) (h : Reachable s) {e : CallerId}
    (ho : (s.mem.cell t).owner = .thread (.caller e)) :
    ∃ sent xs, Pool.caller s e = .sending sent xs := by
  have hpass := h.pass_eq_none hc e
  have hnil : ∀ {l : List (Task × Stage V P)}, s.mem.Has prog (.thread (.caller e)) l → l ≠ [] := by
    rintro l hl rfl
    exact Shared.Has.nil_iff.mp hl t ho
  cases hp : Pool.caller s e with
  | sending sent xs => exact ⟨sent, xs, rfl⟩
  | unwind r => exact absurd rfl (hnil (h.unwind hc hp))
  | idle | waitSignal | pollSignal | takeState | takeBuffer | panicked =>
      exact absurd rfl (hnil ((h.caller e).tasks [] (by rw [hp]; rfl)))
  | _ => simp [hp, CallerPc.pass] at hpass

/-- The dispatcher does not come back to its loop. -/
theorem over_step (h : (Pool.dispatcher s).over = true) (hs : s.step a = some s') :
    (Pool.dispatcher s').over = true := by
  rcases step_cases hs with ⟨q, o, rfl, hn, rfl⟩ | ⟨v, pends, q, o, rfl, -, rfl⟩ |
    ⟨e, c, q, o, rfl, -, rfl⟩
  · cases hd : Pool.dispatcher s <;> rw [hd] at h hn <;> cases h <;> cases hn
  · rwa [dispatcher_move_worker]
  · rwa [dispatcher_move_caller]

/-- With threads, a task that is gone was woken, unless the dispatcher left its
loop. -/
theorem Reachable.woken_of_gone (hc : cfg.threadCount ≠ 0) (h : Reachable s) :
    (Pool.dispatcher s).over = true ∨
      ∀ t, (s.mem.cell t).owner = .gone → (s.mem.cell t).wakes ≠ [] := by
  refine h.invariant (I := fun s => (Pool.dispatcher s).over = true ∨
    ∀ t, (s.mem.cell t).owner = .gone → (s.mem.cell t).wakes ≠ []) (.inr fun t ht => by cases ht) ?_
  intro s s' a hr hi hs _
  have hr : Reachable s := hr
  by_cases hover : (Pool.dispatcher s').over = true
  · exact .inl hover
  have hall := hi.resolve_left fun ho => hover (over_step ho hs)
  refine .inr fun t ho' => ?_
  have hgrows := hr.grows hs
  obtain ⟨q, o, hn, rfl⟩ := System.State.step_cases hs
  have hpre : o.Pre prog a.tid s.mem := hr.pre hn
  obtain ⟨i, c⟩ := a
  have drop : ∀ e, i = .caller e → o.drops = true →
      (s.mem.cell t).owner = .thread (.caller e) → False := by
    rintro e rfl hd ho
    rcases (callerNext_drops (hr.pass_eq_none hc e) hn).1 hd with ha | ⟨r, hu⟩
    · exact hover (over_step (hr.alive.resolve_left (by simp [ha])) hs)
    · exact Shared.Has.nil_iff.mp (hr.unwind hc hu) t ho
  have dispatcher : i = .dispatcher → o = .dropDispatcher → False := by
    rintro rfl rfl
    have hd : Pool.dispatcher (s.move .dispatcher q .dropDispatcher) = q := dispatcher_move _ _ _
    rcases dispatcherNext_over hn with hq | ⟨-, hne⟩
    · exact hover (hd ▸ hq)
    · exact hne rfl
  rcases Op.owner_cases hpre hr.inv.places t with he | hcar
  · exact hgrows.wakes_ne_nil (hall t (he.symm.trans ho'))
  · generalize hown : (s.mem.cell t).owner = o₁ at hcar
    rw [show ((o.exec s.mem).cell t).owner = .gone from ho'] at hcar
    cases hcar with
    | wakeQueue j home site =>
        have hcell := hr.inv.life.cell t
        rw [CellOk, hpre.1.2] at hcell
        exact hgrows.wakes_ne_nil (by simp [hcell.2.1])
    | dropTask j =>
        obtain ⟨⟨e, rfl⟩, hat⟩ := hpre
        exact (drop e rfl rfl hat.1).elim
    | dropDispatcher => exact (dispatcher hpre.1 rfl).elim
    | dropChannel => exact (dispatcher hpre.1 rfl).elim
    | failSubmit e => exact (drop e hpre.1 rfl hown).elim
    | dropCaller e => exact (drop e hpre.1 rfl hown).elim

end Pool

/-! ## Quiescent states -/

/-- The dispatcher is blocked in `recv` or in `signal.wait()`. -/
def DispatcherPc.Sleeps (m : Shared V P) : DispatcherPc P → Prop
  | .top [] => m.channel = [] ∧ m.queueAlive = true
  | .wait _ => m.queueSignal.ready = false
  | _ => False

/-- A worker is blocked in `recv` or in `signal.wait()`. -/
def WorkerPc.Sleeps (w : WorkerId) (m : Shared V P) : WorkerPc V P → Prop
  | .top [] => m.workerChannel w = [] ∧ m.dispatcherAlive = true
  | .wait _ => (m.workerSignal w).ready = false
  | _ => False

/-- A worker that owes a wake-up has a task. -/
theorem WorkerPc.exists_task_of_owes {p : WorkerPc V P} (h : p.owes = true) :
    ∃ x, x ∈ p.tasks := by
  cases p with
  | readyArm | settle => exact ⟨_, List.mem_cons_self⟩
  | _ => cases h

namespace Pool

variable {s s' : (pool cfg prog).State} {a : (pool cfg prog).Action}

/-- The threads of the pool sleep, and no task is being submitted. -/
structure Quiescent (s : (pool cfg prog).State) : Prop where
  dispatcher : (dispatcher s).Sleeps s.mem
  worker : ∀ w ∈ cfg.threads, (worker s w).Sleeps w s.mem
  caller : ∀ e sent xs, caller s e ≠ .sending sent xs

/-- The completion signal of every submitted task that was cancelled is woken. -/
def CancelledSettled (s : (pool cfg prog).State) : Prop :=
  ∀ t, (s.mem.cell t).owner ≠ .user → (s.mem.cell t).cancelled = true → (s.mem.cell t).wakes ≠ []

theorem Quiescent.not_sendsTo (h : Quiescent s) (w : WorkerId) :
    ¬(Pool.dispatcher s).sendsTo w := by
  intro hw
  have hd := h.dispatcher
  cases hp : Pool.dispatcher s <;> rw [hp] at hd hw <;> first | exact hw | exact hd

theorem Quiescent.not_owes (hr : Reachable s) (h : Quiescent s) (i : Tid) : ¬Owes s i := by
  intro ho
  cases i with
  | dispatcher =>
      have hd := h.dispatcher
      simp only [Owes] at ho
      cases hp : Pool.dispatcher s <;> rw [hp] at hd ho <;> first | cases ho | exact hd
  | worker w =>
      simp only [Owes] at ho
      obtain ⟨x, hx⟩ := WorkerPc.exists_task_of_owes ho
      have hw := h.worker w (hr.mem_threads x.1.id w (.inr ((hr.worker w).tasks.owner_of_mem hx)))
      cases hp : Pool.worker s w <;> rw [hp] at hw ho <;> first | cases ho | exact hw
  | caller e =>
      simp only [Owes] at ho
      cases hp : Pool.caller s e with
      | sending sent xs => exact h.caller e sent xs hp
      | _ => rw [hp] at ho; cases ho

/-- The dispatcher sleeps in its `recv`, or in its `signal.wait()` and will not be
woken. -/
theorem Quiescent.dispatcher_cases (hr : Reachable s) (h : Quiescent s) :
    (Pool.dispatcher s = .top [] ∧ s.mem.channel = []) ∨
      ∃ xs, Pool.dispatcher s = .wait xs ∧ ¬WakesUp s .dispatcher := by
  have hd := h.dispatcher
  cases hp : Pool.dispatcher s with
  | top xs =>
      rw [hp] at hd
      cases xs with
      | nil => exact .inl ⟨rfl, hd.1⟩
      | cons x xs => exact hd.elim
  | wait xs =>
      rw [hp] at hd
      refine .inr ⟨xs, rfl, ?_⟩
      rintro (hq | ⟨i, hi⟩)
      · simp [DispatcherPc.Sleeps, hq] at hd
      · exact h.not_owes hr i hi
  | _ => rw [hp] at hd; exact hd.elim

/-- A worker sleeps in its `recv`, or in its `signal.wait()` and will not be
woken. -/
theorem Quiescent.worker_cases (h : Quiescent s) (hw : w ∈ cfg.threads) :
    (Pool.worker s w = .top [] ∧ s.mem.workerChannel w = []) ∨
      ∃ fs, Pool.worker s w = .wait fs ∧ ¬WakesUp s (.worker w) := by
  have hw := h.worker w hw
  cases hp : Pool.worker s w with
  | top fs =>
      rw [hp] at hw
      cases fs with
      | nil => exact .inl ⟨rfl, hw.1⟩
      | cons f fs => exact hw.elim
  | wait fs =>
      rw [hp] at hw
      refine .inr ⟨fs, rfl, ?_⟩
      rintro (hq | hd)
      · simp [WorkerPc.Sleeps, hq] at hw
      · exact h.not_sendsTo w hd
  | _ => rw [hp] at hw; exact hw.elim

/-- The threads of the pool. -/
def Pooled (cfg : Specs) : Tid → Prop
  | .worker w => w ∈ cfg.threads
  | _ => True

/-- A thread that attends to its tasks sleeps with an empty channel. -/
theorem Quiescent.inbox_eq_nil (hr : Reachable s) (h : Quiescent s) {i : Tid}
    (hi : Pooled cfg i) (ha : Attends s i) : inbox s i = [] := by
  cases i with
  | dispatcher =>
      rcases h.dispatcher_cases hr with ⟨-, hc⟩ | ⟨xs, hp, hw⟩
      · exact hc
      · exact ha.inbox.resolve_right (by simp [hw, Draining, hp, DispatcherPc.drains])
  | worker w =>
      rcases h.worker_cases hi with ⟨-, hc⟩ | ⟨fs, hp, hw⟩
      · exact hc
      · exact ha.inbox.resolve_right (by simp [hw, Draining, hp, WorkerPc.drains])
  | caller e => rfl

/-- A thread that attends to its tasks has passed over none that is cancelled when
it sleeps. -/
theorem Quiescent.cancelled_eq_false (hr : Reachable s) (h : Quiescent s) {i : Tid}
    (hi : Pooled cfg i) (ha : Attends s i) (ht : t ∈ passed s i) :
    (s.mem.cell t).cancelled = false := by
  refine Bool.eq_false_iff.mpr fun hc => ?_
  have hw := ha.cancelled t ht hc
  cases i with
  | dispatcher =>
      rcases h.dispatcher_cases hr with ⟨hp, -⟩ | ⟨xs, -, hn⟩
      · simp [passed, hp, DispatcherPc.passed] at ht
      · exact hn hw
  | worker w =>
      rcases h.worker_cases hi with ⟨hp, -⟩ | ⟨fs, -, hn⟩
      · simp [passed, hp, WorkerPc.passed] at ht
      · exact hn hw
  | caller e => cases ht

/-- In a quiescent state a submitted task that was not woken is one that a thread
has passed over. -/
theorem Quiescent.exists_passed (hc : cfg.threadCount ≠ 0) (hr : Reachable s) (h : Quiescent s)
    (ha : ∀ i, Attends s i) (ho : (s.mem.cell t).owner ≠ .user)
    (hw : (s.mem.cell t).wakes = []) : ∃ i, Pooled cfg i ∧ t ∈ passed s i := by
  cases hown : (s.mem.cell t).owner with
  | user => exact absurd hown ho
  | gone =>
      rcases hr.woken_of_gone hc with hd | hall
      · rcases h.dispatcher_cases hr with ⟨hp, -⟩ | ⟨xs, hp, -⟩ <;> rw [hp] at hd <;> cases hd
      · exact absurd hw (hall t hown)
  | channel =>
      obtain ⟨x, -, hx⟩ := hr.inv.places.channel.exists_mem hown
      have hnil : s.mem.channel = [] := h.inbox_eq_nil hr (i := .dispatcher) trivial (ha _)
      simp [hnil] at hx
  | workerChannel w =>
      obtain ⟨x, -, hx⟩ := (hr.inv.places.workerChannel w).exists_mem hown
      have hnil : s.mem.workerChannel w = [] :=
        h.inbox_eq_nil hr (i := .worker w) (hr.mem_threads t w (.inl hown)) (ha _)
      simp [hnil] at hx
  | thread i =>
      refine ⟨i, ?_⟩
      cases i with
      | dispatcher =>
          refine ⟨trivial, ?_⟩
          obtain ⟨x, rfl, hx⟩ := hr.dispatcher.tasks.exists_mem hown
          rcases h.dispatcher_cases hr with ⟨hp, -⟩ | ⟨xs, hp, -⟩ <;> rw [hp] at hx
          · cases hx
          · obtain ⟨y, hy, he⟩ := List.mem_map.mp hx
            obtain ⟨rfl, -⟩ := Prod.mk.inj he
            simpa [passed, hp, DispatcherPc.passed] using ⟨y, hy, rfl⟩
      | worker w =>
          have hmem := hr.mem_threads t w (.inr hown)
          refine ⟨hmem, ?_⟩
          obtain ⟨x, rfl, hx⟩ := (hr.worker w).tasks.exists_mem hown
          rcases h.worker_cases hmem with ⟨hp, -⟩ | ⟨fs, hp, -⟩ <;> rw [hp] at hx
          · cases hx
          · obtain ⟨f, hf, he⟩ := List.mem_map.mp hx
            obtain ⟨rfl, -⟩ := Prod.mk.inj he
            simpa [passed, hp, WorkerPc.passed] using ⟨f, hf, rfl⟩
      | caller e =>
          obtain ⟨sent, xs, hp⟩ := hr.sending_of_owner hc hown
          exact absurd hp (h.caller e sent xs)

theorem Attends.init (i : Tid) : Attends (poolInit cfg prog) i where
  inbox := .inl (by cases i <;> rfl)
  cancelled t ht := by cases i <;> cases ht

/-- `cancel` wakes nobody. -/
theorem Quiescent.cancel (h : Quiescent s) {e : CallerId} :
    Quiescent (s.move (.caller e) (.idle : CallerPc V P) (.cancel t)) where
  dispatcher := by
    have hd := h.dispatcher
    rw [dispatcher_move_caller]
    unfold DispatcherPc.Sleeps at hd ⊢
    split at hd <;> exact hd
  worker w hw := by
    have hw := h.worker w hw
    rw [worker_move_caller]
    unfold WorkerPc.Sleeps at hw ⊢
    split at hw <;> exact hw
  caller e' sent xs hp := by
    by_cases he : e' = e
    · subst he
      rw [caller_move] at hp
      cases hp
    · rw [caller_move_of_ne s _ he] at hp
      exact h.caller e' sent xs hp

/-- A task that is cancelled in a quiescent state is not settled. -/
theorem Quiescent.unsettled (h : Quiescent s) {e : CallerId} (he : Pool.caller s e = .idle)
    (hs : s.step (call e (.cancel t)) = some s') (ho : (s.mem.cell t).owner ≠ .user)
    (hw : (s.mem.cell t).wakes = []) : Quiescent s' ∧ ¬CancelledSettled s' := by
  rcases step_cases hs with ⟨q, o, ha, -⟩ | ⟨w, b, q, o, ha, -⟩ | ⟨e', c, q, o, ha, hn, rfl⟩
  · cases ha
  · cases ha
  cases ha
  rw [he] at hn
  cases hn
  have hcell : (s.move (.caller e) (.idle : CallerPc V P) (.cancel t)).mem.cell t =
      { s.mem.cell t with state := .cancelled, cancelled := true } :=
    Shared.modify_cell_self s.mem t fun c => { c with state := .cancelled, cancelled := true }
  refine ⟨h.cancel, fun hall => ?_⟩
  have hwakes := hall t
  rw [hcell] at hwakes
  exact hwakes ho rfl hw

/-- With threads, a cancelled task is always settled if every `cancel` is heard.
A task that is cancelled in a quiescent state is not. -/
theorem cancelled_settled (hc : 0 < cfg.threadCount) :
    (∀ s : (pool cfg prog).State, System.ReachVia (fun s a _ => Heard s a) (poolInit cfg prog) s →
      Quiescent s → CancelledSettled s) ∧
    ∀ (s s' : (pool cfg prog).State) (e : CallerId) (t : TaskId), Reachable s → Quiescent s →
      caller s e = .idle → s.step (call e (.cancel t)) = some s' →
      (s.mem.cell t).owner ≠ .user → (s.mem.cell t).wakes = [] →
      Quiescent s' ∧ ¬CancelledSettled s' := by
  have hc' : cfg.threadCount ≠ 0 := fun he => absurd hc (by simp [he])
  refine ⟨fun s h hq t ho hcan hw => ?_, fun s s' e t _ hq he hs ho hw => hq.unsettled he hs ho hw⟩
  have ha : ∀ i, Attends s i := fun i =>
    h.invariant (I := fun s => Attends s i) (.init i)
      fun _ hr hi hs hok => hi.step hr.reach hok hs
  obtain ⟨i, hi, ht⟩ := hq.exists_passed hc' h.reach ha ho hw
  simp [hq.cancelled_eq_false h.reach hi (ha i) ht] at hcan

end Pool

/-! ## Two pools -/

set_option maxRecDepth 2000

/-- A task whose future awaits something. -/
def parkedTask : Program Nat Nat := .chain true 0 fun _ _ => .ok 5

/-- The state after a schedule of the dispatcher, the first worker and the first two
callers. -/
theorem parkedTask_pc {as : List (pool Specs.one parkedTask).Action}
    (hall : as.all (fun a => a.tid = .dispatcher ∨ a.tid = .worker 0 ∨ a.tid = .caller 0 ∨
      a.tid = .caller 1) = true) {e : CallerId} (h₀ : e ≠ 0) (h₁ : e ≠ 1) :
    caller ((poolInit _ _).after as) e = .idle := by
  refine System.State.after_pc_of_ne (i := .caller e) as fun a ha => ?_
  rcases of_decide_eq_true (List.all_eq_true.mp hall a ha) with h | h | h | h <;> rw [h]
  · exact nofun
  · exact nofun
  · simpa using h₀.symm
  · simpa using h₁.symm

/-- The schedule in which the task is submitted, and its worker polls it twice and
goes to sleep. -/
def parkSchedule : List (pool Specs.one parkedTask).Action :=
  submits 0 [0] ++ List.replicate 20 dispatch ++ List.replicate 20 (work 0 true)

def parked : (pool Specs.one parkedTask).State := (poolInit _ _).after parkSchedule

theorem parked_reachable : Reachable parked := .after _ .init

theorem parked_quiescent : Quiescent parked where
  dispatcher := by
    have hd : dispatcher parked = .top [] := by decide
    rw [hd]
    exact ⟨by decide, by decide⟩
  worker w hw := by
    obtain rfl : w = 0 := by simpa [Specs.threads, Specs.one] using hw
    have hp : worker parked 0 = .wait [⟨parkedTask.task 0, some none⟩] := by decide
    rw [hp]
    show (parked.mem.workerSignal 0).ready = false
    decide
  caller e sent xs hp := by
    have h₀ : caller parked 0 = .idle := by decide
    have h₁ : caller parked 1 = .idle := by decide
    by_cases he₀ : e = 0
    · simp [he₀, h₀] at hp
    by_cases he₁ : e = 1
    · simp [he₁, h₁] at hp
    · rw [show caller parked e = .idle from parkedTask_pc (by decide) he₀ he₁] at hp
      cases hp

/-- The parked task is cancelled, and nobody settles it. -/
theorem Pool.cancelled_unsettled :
    ¬∀ s : (pool Specs.one parkedTask).State, Reachable s → Quiescent s → CancelledSettled s := by
  intro h
  obtain ⟨s, hs⟩ := Option.isSome_iff_exists.mp
    (show (parked.step (call 1 (.cancel 0))).isSome = true by decide)
  obtain ⟨hq, hn⟩ := parked_quiescent.unsettled (t := 0) (e := 1) (by decide) hs
    (by decide) (by decide)
  exact hn (h s (.step _ parked_reachable hs trivial) hq)

/-- The schedule in which the task is submitted after it was cancelled. -/
def dismissSchedule : List (pool Specs.one parkedTask).Action :=
  submits 0 [0] ++ List.replicate 20 dispatch

def dismissed : (pool Specs.one parkedTask).State :=
  (poolInit _ _).after (call 1 (.cancel 0) :: dismissSchedule)

theorem dismissed_heard :
    System.ReachVia (fun s a _ => Heard s a) (poolInit _ _) dismissed := by
  have hfirst : System.ReachVia (fun s a _ => Heard s a) (poolInit Specs.one parkedTask)
      (((poolInit _ _).step (call 1 (.cancel 0))).getD (poolInit _ _)) := by
    refine .step (call 1 (.cancel 0)) .init rfl ⟨fun e t _ i ht => ?_, nofun⟩
    cases i <;> cases ht
  rw [dismissed, System.State.after_cons]
  refine hfirst.along (f := fun s a => !cancels a && ((dispatcher s).refuses s.mem).isNone)
    (fun s a _ _ h => ?_) dismissSchedule (by decide)
  simp only [Bool.and_eq_true, Bool.not_eq_true', Option.isNone_iff_eq_none] at h
  refine ⟨?_, ?_⟩
  · rintro e t rfl
    cases h.1
  · intro x _ hx
    simp [h.2] at hx

theorem dismissed_quiescent : Quiescent dismissed where
  dispatcher := by
    have hd : dispatcher dismissed = .top [] := by decide
    rw [hd]
    exact ⟨by decide, by decide⟩
  worker w hw := by
    obtain rfl : w = 0 := by simpa [Specs.threads, Specs.one] using hw
    have hp : worker dismissed 0 = .top [] := by decide
    rw [hp]
    exact ⟨by decide, by decide⟩
  caller e sent xs hp := by
    have h₀ : caller dismissed 0 = .idle := by decide
    have h₁ : caller dismissed 1 = .idle := by decide
    by_cases he₀ : e = 0
    · simp [he₀, h₀] at hp
    by_cases he₁ : e = 1
    · simp [he₁, h₁] at hp
    · rw [show caller dismissed e = .idle from parkedTask_pc (by decide) he₀ he₁] at hp
      cases hp

/-- A task that is cancelled before it is submitted is settled. -/
theorem Pool.cancelled_settled_dismissed :
    (dismissed.mem.cell 0).cancelled = true ∧ CancelledSettled dismissed :=
  ⟨by decide,
    (cancelled_settled (by decide)).1 dismissed dismissed_heard dismissed_quiescent⟩

end MVSync
