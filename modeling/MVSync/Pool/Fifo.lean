import MVSync.Pool.Cancel
import MVSync.Pool.Placement
import MVSync.Pool.Start

/-!
# First in, first out

The submission channel and the channel of a worker keep the order of the tasks, and
so does the list of the dispatcher as long as a pass sends no task after it has put
an earlier one into `remaining_tasks`.  A worker that finishes a task during a pass
gives its slot to a later task of the pass (`PassesOver`), and the order is lost.
-/

namespace MVSync

open Concurrency Pool

variable {V P : Type} {cfg : Specs} {prog : Program V P} {m : Shared V P} {i : Tid} {t : TaskId}
  {x : Task} {op : Op V P} {w : WorkerId} {l l' : List (Op V P)}

/-! ## What a log says -/

/-- The task that is put on the submission channel. -/
def Op.submits : Op V P → Option TaskId
  | .send x => some x.id
  | _ => none

/-- The task that is sent to a worker. -/
def Op.dispatches : Op V P → Option TaskId
  | .sendWorker _ x => some x.id
  | _ => none

/-- The task whose body starts. -/
def Op.starts : Op V P → Option TaskId
  | .invoke t _ => some t
  | _ => none

/-- The tasks are sent to the workers in the order in which they were put on the
submission channel, and their bodies start in that order. -/
structure Fifo (l : List (Op V P)) : Prop where
  dispatched : l.filterMap Op.dispatches <+: l.filterMap Op.submits
  started : l.filterMap Op.starts <+: l.filterMap Op.dispatches

/-! ## The list of the dispatcher -/

/-- The tasks that the dispatcher has, in the order in which it looks at them next. -/
def DispatcherPc.order : DispatcherPc P → List Task
  | .top xs | .wait xs => xs
  | .scan todo remaining | .fetchSub _ todo remaining | .wakeWorker _ todo remaining =>
      remaining ++ todo
  | .canExecute x _ todo remaining | .isPanicked x todo remaining | .getPanic x todo remaining
  | .isCancelled x todo remaining | .isCancelledSelf x todo remaining
  | .replace x _ _ _ todo remaining | .select x _ _ todo remaining
  | .freeWorkers x _ todo remaining | .send x _ todo remaining
  | .settle x _ _ todo remaining => remaining ++ x :: todo
  | .exited | .panicked => []

/-- The dispatcher does not settle the task at hand itself. -/
def DispatcherPc.plain : DispatcherPc P → Bool
  | .getPanic _ _ _ | .replace _ _ _ _ _ _ | .settle _ _ _ _ _ | .panicked => false
  | _ => true

/-- The dispatcher sends a task although an earlier one of the pass stays behind. -/
def DispatcherPc.passesOver : DispatcherPc P → Bool
  | .send _ _ _ (_ :: _) => true
  | _ => false

/-- Without predecessors and `cancel`, the dispatcher takes the tasks from the channel
and sends them in one order, if it passes over none. -/
theorem dispatcherNext_order {p p' : DispatcherPc P} (hp : p.plain = true)
    (hx : ∀ y ∈ (p.tasks : List (Task × Stage V P)),
      m.predState y.1 = .ready ∧ (m.cell y.1.id).state ≠ .cancelled)
    (hno : p.passesOver = false) (h : dispatcherNext cfg p m = some (p', op)) :
    p'.plain = true ∧
      op.dispatches.toList ++ (p'.order ++ (op.exec m).channel).map Task.id =
        (p.order ++ m.channel).map Task.id ∧
      op.submits = none ∧ op.starts = none := by
  cases dispatcherNext_step h with
  | recv hc => exact ⟨rfl, by simp [DispatcherPc.order, Op.dispatches, Op.exec, hc], rfl, rfl⟩
  | tryRecv hc => exact ⟨rfl, by simp [DispatcherPc.order, Op.dispatches, Op.exec, hc], rfl, rfl⟩
  | isPanicked hpan =>
      have hr := (hx _ List.mem_cons_self).1
      simp [Shared.isPanicked, hr, TaskState.isPanicked] at hpan
  | predCancelled hc =>
      have hr := (hx _ List.mem_cons_self).1
      simp [hc] at hr
  | selfCancelled hc => exact absurd hc (hx _ List.mem_cons_self).2
  | @send x v todo remaining =>
      cases remaining with
      | nil => exact ⟨rfl, by simp [DispatcherPc.order, Op.dispatches, Op.exec], rfl, rfl⟩
      | cons y ys => cases hno
  | getPanic => cases hp
  | panic => cases hp
  | replace => cases hp
  | settle => cases hp
  | settled => cases hp
  | noLabel =>
      -- the task keeps its number
      exact ⟨rfl, by simp [DispatcherPc.order, Op.dispatches, Task.removePreferredThread], rfl, rfl⟩
  | noThread =>
      exact ⟨rfl, by simp [DispatcherPc.order, Op.dispatches, Task.clearNotOn], rfl, rfl⟩
  | _ => exact ⟨rfl, by simp [DispatcherPc.order, Op.dispatches, Op.exec], rfl, rfl⟩

/-! ## The futures of a worker -/

/-- The tasks whose future was not polled. -/
def unpolled (fs : List (Fut V)) : List Task :=
  (fs.filter fun f => f.suspended.isNone).map Fut.task

/-- The tasks of a worker whose body did not start, in the order of the futures. -/
def WorkerPc.unstarted : WorkerPc V P → List Task
  | .top fs | .check fs | .wait fs => unpolled fs
  | .poll x .start _ todo => x :: unpolled todo
  | .retain _ todo | .poll _ _ _ todo | .pendingArm _ _ _ todo | .errArm _ _ _ todo
  | .readyArm _ _ todo | .settle _ _ _ _ todo => unpolled todo
  | .exited => []

/-- The futures that `retain_mut` has kept so far. -/
def WorkerPc.kept : WorkerPc V P → List (Fut V)
  | .retain kept _ | .poll _ _ kept _ | .pendingArm _ _ kept _ | .errArm _ _ kept _
  | .readyArm _ kept _ | .settle _ _ _ kept _ => kept
  | _ => []

@[simp] theorem unpolled_nil : unpolled ([] : List (Fut V)) = [] := rfl

@[simp] theorem unpolled_cons (f : Fut V) (fs : List (Fut V)) :
    unpolled (f :: fs) = if f.suspended.isNone then f.task :: unpolled fs else unpolled fs := by
  cases hf : f.suspended <;> simp [unpolled, hf]

@[simp] theorem unpolled_append (fs gs : List (Fut V)) :
    unpolled (fs ++ gs) = unpolled fs ++ unpolled gs := by
  simp [unpolled]

/-- A poll begins with the start of the body if the future was not polled. -/
theorem WorkerPc.unstarted_entry (f : Fut V) (kept todo : List (Fut V)) :
    (.poll f.task f.entry kept todo : WorkerPc V P).unstarted = unpolled (f :: todo) := by
  obtain ⟨x, suspended⟩ := f
  cases suspended <;> rfl

theorem WorkerPc.unstarted_poll {p : PollPc V P} (hp : p ≠ .start) (kept todo : List (Fut V)) :
    (.poll x p kept todo : WorkerPc V P).unstarted = unpolled todo := by
  cases p with
  | start => exact absurd rfl hp
  | _ => rfl

/-- Without a predecessor the first step of a future is the start of the body, and no
later one is. -/
theorem pollNext_starts (hpred : prog.pred x.id = none) (hb : prog.Built x) {pends : Bool}
    {p : PollPc V P} {r : PollResult V P} (hk : p.Knows prog x m)
    (h : pollNext prog x pends p m = some (r, op)) :
    p = .start ∧ op = .invoke x.id none ∧ r = .more (.body none) ∨
      p ≠ .start ∧ op.starts = none ∧ r ≠ .more .start := by
  cases pollNext_step h with
  | invoke => exact .inl ⟨rfl, rfl, rfl⟩
  | await hp =>
      rw [hb.pred, hpred] at hp
      cases hp
  | predReturned =>
      have hp : prog.pred x.id = _ := hk
      simp [hpred] at hp
  | _ => exact .inr ⟨nofun, rfl, nofun⟩

/-- A poll that ends with this step has started the body before. -/
theorem pollNext_ends (hpred : prog.pred x.id = none) (hb : prog.Built x) {pends : Bool}
    {p : PollPc V P} {r : PollResult V P} (hk : p.Knows prog x m)
    (h : pollNext prog x pends p m = some (r, op)) (hr : ∀ p', r ≠ .more p') :
    p ≠ .start ∧ op.starts = none := by
  rcases pollNext_starts hpred hb hk h with ⟨-, -, he⟩ | ⟨hne, hs, -⟩
  · exact absurd he (hr _)
  · exact ⟨hne, hs⟩

/-- A poll and a settling site leave the channels alone. -/
theorem Op.channels_of_ofFuture (h : op.ofFuture = true) :
    (op.exec m).workerChannel w = m.workerChannel w ∧ op.submits = none ∧ op.dispatches = none := by
  refine ⟨Op.workerChannel_eq ?_ fun y => ?_, ?_⟩
  · rintro rfl
    cases h
  · rintro rfl
    cases h
  · cases op <;> first | exact ⟨rfl, rfl⟩ | cases h

theorem settleNext_starts {site : Site} {sp : SettlePc} {sp' : Option SettlePc}
    (h : settleNext x site sp = (sp', op)) : op.starts = none := by
  unfold settleNext at h
  split at h <;> cases h <;> rfl

/-- Without predecessors a worker starts the tasks in the order in which they are sent
to it. -/
theorem workerNext_unstarted (hpred : ∀ t, prog.pred t = none) {pends : Bool}
    {q q' : WorkerPc V P} (hk : q.Knows prog m) (hb : ∀ y ∈ q.tasks, prog.Built y.1)
    (hkept : unpolled q.kept = []) (h : workerNext prog w pends q m = some (q', op)) :
    unpolled q'.kept = [] ∧
      op.starts.toList ++ (q'.unstarted ++ (op.exec m).workerChannel w).map Task.id =
        (q.unstarted ++ m.workerChannel w).map Task.id ∧
      op.submits = none ∧ op.dispatches = none := by
  -- a step that starts nothing and leaves the channel alone
  have still : ∀ {xs : List Task}, op.starts = none →
      (op.exec m).workerChannel w = m.workerChannel w →
      op.starts.toList ++ (xs ++ (op.exec m).workerChannel w).map Task.id =
        (xs ++ m.workerChannel w).map Task.id := by
    intro xs hs hc
    rw [hs, hc]
    rfl
  cases workerNext_step h with
  | recv hc =>
      exact ⟨rfl, by simp [WorkerPc.unstarted, Op.starts, Op.exec, hc], rfl, rfl⟩
  | @tryRecv f fs y _ hc =>
      have hfs : (.top (f :: fs ++ [⟨y, none⟩]) : WorkerPc V P).unstarted =
          unpolled (f :: fs) ++ [y] := unpolled_append (f :: fs) [⟨y, none⟩]
      refine ⟨rfl, ?_, rfl, rfl⟩
      rw [hfs]
      simp [WorkerPc.unstarted, Op.starts, Op.exec, hc]
  | @retained kept =>
      refine ⟨rfl, ?_, rfl, rfl⟩
      have hnil : unpolled kept = [] := hkept
      simp [WorkerPc.unstarted, Op.starts, hnil]
  | @next f kept todo =>
      refine ⟨hkept, ?_, rfl, rfl⟩
      rw [WorkerPc.unstarted_entry]
      rfl
  | @more y p p' _ _ _ hp =>
      rcases pollNext_starts (hpred y.id) (hb _ List.mem_cons_self) hk hp with
        ⟨rfl, rfl, hr⟩ | ⟨hne, hs, hr⟩
      · cases hr
        exact ⟨hkept, rfl, rfl, rfl⟩
      · obtain ⟨hc, hsub⟩ := Op.channels_of_ofFuture (m := m) (w := w) (pollNext_ofFuture hp)
        have hne' : p' ≠ .start := fun he => hr (he ▸ rfl)
        refine ⟨hkept, ?_, hsub⟩
        rw [WorkerPc.unstarted_poll hne, WorkerPc.unstarted_poll hne']
        exact still hs hc
  | pending hp | err hp | ready hp =>
      obtain ⟨hne, hs⟩ := pollNext_ends (hpred _) (hb _ List.mem_cons_self) hk hp (by simp)
      obtain ⟨hc, hsub⟩ := Op.channels_of_ofFuture (m := m) (w := w) (pollNext_ofFuture hp)
      refine ⟨hkept, ?_, hsub⟩
      rw [WorkerPc.unstarted_poll hne]
      exact still hs hc
  | settle hs | settled hs =>
      obtain ⟨hc, hsub⟩ := Op.channels_of_ofFuture (m := m) (w := w) (settleNext_ofFuture hs)
      exact ⟨hkept, still (settleNext_starts hs) hc, hsub⟩
  | @kept y v kept todo =>
      have hnil : unpolled kept = [] := hkept
      exact ⟨by simp [WorkerPc.kept, hnil], rfl, rfl, rfl⟩
  | exit | emptied | sleep | again | wake | received => exact ⟨rfl, rfl, rfl, rfl⟩
  | pendingCancelled | errArm | readyArm => exact ⟨hkept, rfl, rfl, rfl⟩

/-- If the pool has threads, a thread of the user starts no body. -/
theorem callerNext_starts {e : CallerId} {c : CallerInput} {p p' : CallerPc V P}
    (hp : p.pass = none) (h : callerNext cfg prog e c p m = some (p', op)) : op.starts = none := by
  cases callerNext_step h with
  | more | pending | err | ready | settle | settled => cases hp
  | _ => rfl

/-! ## The channels -/

/-- The other threads only add to the submission channel. -/
theorem Op.channel_submits (hp : op.Pre prog i m) (hi : i ≠ .dispatcher) :
    (op.exec m).channel.map Task.id = m.channel.map Task.id ++ op.submits.toList ∧
      op.dispatches = none := by
  by_cases ho : ∃ x, op = .send x
  · obtain ⟨x, rfl⟩ := ho
    exact ⟨by simp [Op.exec, Op.submits], rfl⟩
  · rw [not_exists] at ho
    have hsub : op.submits = none := by
      cases op with
      | send x => exact absurd rfl (ho x)
      | _ => rfl
    rw [Op.channel_eq ?_ ho ?_, hsub]
    · refine ⟨(List.append_nil _).symm, ?_⟩
      cases op with
      | sendWorker w x => exact absurd hp.1 hi
      | _ => rfl
    · rintro rfl
      exact hi hp.1
    · rintro rfl
      exact hi hp.1

/-- The other threads only add to the channel of the one worker. -/
theorem Op.workerChannel_dispatches (hr : op ≠ .recvWorker w)
    (hs : ∀ v x, op = .sendWorker v x → v = w) :
    ((op.exec m).workerChannel w).map Task.id =
      (m.workerChannel w).map Task.id ++ op.dispatches.toList := by
  by_cases ho : ∃ x, op = .sendWorker w x
  · obtain ⟨x, rfl⟩ := ho
    simp [Op.exec, Op.dispatches]
  · rw [not_exists] at ho
    have hdis : op.dispatches = none := by
      cases op with
      | sendWorker v x => exact absurd (hs v x rfl ▸ rfl) (ho x)
      | _ => rfl
    rw [Op.workerChannel_eq hr ho, hdis]
    exact (List.append_nil _).symm

/-- What is left of the order when the dispatcher is at `p` and the worker at `q`: the
tasks that were not sent yet, and those whose body did not start. -/
structure Queued (l : List (Op V P)) (p : DispatcherPc P) (q : WorkerPc V P) (m : Shared V P) :
    Prop where
  plain : p.plain = true
  dispatched : l.filterMap Op.dispatches ++ (p.order ++ m.channel).map Task.id =
    l.filterMap Op.submits
  kept : unpolled q.kept = []
  started : l.filterMap Op.starts ++ (q.unstarted ++ m.workerChannel 0).map Task.id =
    l.filterMap Op.dispatches

namespace Queued

variable {p p' : DispatcherPc P} {q q' : WorkerPc V P}

theorem fifo (h : Queued l p q m) : Fifo l where
  dispatched := ⟨_, h.dispatched⟩
  started := ⟨_, h.started⟩

/-- The queue after one operation: what it sends leaves the front of the one queue
and comes to the end of the other. -/
theorem snoc (h : Queued l p q m) (hp : p'.plain = true) (hk : unpolled q'.kept = [])
    (hd : op.dispatches.toList ++ (p'.order ++ (op.exec m).channel).map Task.id =
      (p.order ++ m.channel).map Task.id ++ op.submits.toList)
    (hs : op.starts.toList ++ (q'.unstarted ++ (op.exec m).workerChannel 0).map Task.id =
      (q.unstarted ++ m.workerChannel 0).map Task.id ++ op.dispatches.toList) :
    Queued (l ++ [op]) p' q' (op.exec m) where
  plain := hp
  kept := hk
  dispatched := by
    rw [System.filterMap_snoc, System.filterMap_snoc, ← h.dispatched, List.append_assoc, hd,
      List.append_assoc]
  started := by
    rw [System.filterMap_snoc, System.filterMap_snoc, ← h.started, List.append_assoc, hs,
      List.append_assoc]

/-- A step of the dispatcher. -/
theorem dispatch (h : Queued l p q m)
    (hx : ∀ y ∈ (p.tasks : List (Task × Stage V P)),
      m.predState y.1 = .ready ∧ (m.cell y.1.id).state ≠ .cancelled)
    (ht : ∀ w ∈ p.targets, w = 0) (hno : p.passesOver = false)
    (hn : dispatcherNext cfg p m = some (p', op)) : Queued (l ++ [op]) p' q (op.exec m) := by
  obtain ⟨hp, hord, hsub, hst⟩ := dispatcherNext_order h.plain hx hno hn
  have hwc : ((op.exec m).workerChannel 0).map Task.id =
      (m.workerChannel 0).map Task.id ++ op.dispatches.toList := by
    refine Op.workerChannel_dispatches ?_ fun v x he => ?_
    · rintro rfl
      cases dispatcherNext_step hn with
      | settle hs | settled hs => cases settleNext_ofFuture hs
    · obtain ⟨todo, remaining, rfl, -⟩ := dispatcherNext_sendWorker (he ▸ hn)
      exact ht v List.mem_cons_self
  refine h.snoc hp h.kept (by rw [hord, hsub]; simp) ?_
  rw [hst, List.map_append, List.map_append, hwc]
  simp

/-- A step of another thread that starts nothing and takes nothing. -/
theorem other (h : Queued l p q m) (hpre : op.Pre prog i m) (hi : i ≠ .dispatcher)
    (hw : i ≠ .worker 0) (hst : op.starts = none) : Queued (l ++ [op]) p q (op.exec m) := by
  obtain ⟨hch, hdis⟩ := Op.channel_submits hpre hi
  have hwc : ((op.exec m).workerChannel 0).map Task.id =
      (m.workerChannel 0).map Task.id ++ op.dispatches.toList := by
    refine Op.workerChannel_dispatches ?_ fun v x he => ?_
    · rintro rfl
      exact hw hpre.1
    · subst he
      exact absurd hpre.1 hi
  refine h.snoc h.plain h.kept ?_ ?_
  · rw [hdis, List.map_append, List.map_append, hch]
    simp
  · rw [hst, List.map_append, List.map_append, hwc]
    simp

/-- A step of the worker. -/
theorem work (h : Queued l p q m) (hpred : ∀ t, prog.pred t = none) {pends : Bool}
    (hk : q.Knows prog m) (hb : ∀ y ∈ q.tasks, prog.Built y.1) (hpre : op.Pre prog i m)
    (hi : i ≠ .dispatcher) (hn : workerNext prog 0 pends q m = some (q', op)) :
    Queued (l ++ [op]) p q' (op.exec m) := by
  obtain ⟨hkept, hun, hsub, hdis⟩ := workerNext_unstarted hpred hk hb h.kept hn
  obtain ⟨hch, -⟩ := Op.channel_submits hpre hi
  refine h.snoc h.plain hkept ?_ (by rw [hun, hdis]; simp)
  rw [hdis, List.map_append, List.map_append, hch]
  simp

end Queued

namespace Pool

variable {s s' : (pool cfg prog).State} {a : (pool cfg prog).Action}

/-- The dispatcher sends a task in a pass in which an earlier task stays behind. -/
def PassesOver (s : (pool cfg prog).State) (a : (pool cfg prog).Action) : Bool :=
  a.tid == .dispatcher && (dispatcher s).passesOver

/-- The dispatcher and the worker keep the order. -/
def InOrder (l : List (Op V P)) (s : (pool cfg prog).State) : Prop :=
  Queued l (dispatcher s) (worker s 0) s.mem

theorem InOrder.init : InOrder [] (poolInit cfg prog) := ⟨rfl, rfl, rfl, rfl⟩

/-- Without predecessors and `cancel` a step keeps the order, if the dispatcher passes
over no task. -/
theorem InOrder.step (hc : cfg.threadCount = 1) (hpred : ∀ t, prog.pred t = none)
    (hq : InOrder l s) (h : Reachable s) (hcan : ¬SomeCancel s.mem)
    (hno : PassesOver s a = false) {o : Op V P} (ho : Performs s a o) (hs : s.step a = some s') :
    InOrder (l ++ [o]) s' := by
  have hthreads : ∀ v ∈ cfg.threads, v = 0 := by
    intro v hv
    simpa [Specs.threads, hc] using hv
  rcases step_cases hs with ⟨p, o', rfl, hn, rfl⟩ | ⟨v, pends, q, o', rfl, hn, rfl⟩ |
    ⟨e, c, q, o', rfl, hn, rfl⟩
  · obtain rfl := ho.unique ⟨p, hn⟩
    have hready : ∀ y ∈ ((Pool.dispatcher s).tasks : List (Task × Stage V P)),
        s.mem.predState y.1 = .ready ∧ (s.mem.cell y.1.id).state ≠ .cancelled := by
      intro y hy
      refine ⟨?_, fun he => hcan (h.inv.life.cancelled _ he)⟩
      rw [Shared.predState, (h.dispatcher.tasks.built y hy).pred, hpred]
    have hd : Queued (l ++ [o]) p (Pool.worker s 0) (o.exec s.mem) :=
      Queued.dispatch hq hready (fun w hw => hthreads w (h.targets w hw))
        (by simpa [PassesOver, Pool.dispatch] using hno) hn
    rwa [InOrder, dispatcher_move, worker_move_dispatcher]
  · obtain rfl := ho.unique ⟨q, hn⟩
    have hpre : o.Pre prog (.worker v) s.mem := h.performs ho
    by_cases hv : 0 = v
    · subst hv
      have hw : Queued (l ++ [o]) (Pool.dispatcher s) q (o.exec s.mem) :=
        Queued.work hq hpred (h.worker 0).knows (h.worker 0).tasks.built hpre (by simp) hn
      rwa [InOrder, dispatcher_move_worker, worker_move]
    · have hst : o.starts = none := by
        cases o with
        | invoke t r =>
            obtain ⟨-, st, ha, -⟩ := hpre
            exact absurd (hthreads v (h.mem_threads t v (.inr ha.1))).symm hv
        | _ => rfl
      have hw : Queued (l ++ [o]) (Pool.dispatcher s) (Pool.worker s 0) (o.exec s.mem) :=
        Queued.other hq hpre (by simp) (by simpa [eq_comm] using hv) hst
      rwa [InOrder, dispatcher_move_worker, worker_move_of_ne s o hv]
  · obtain rfl := ho.unique ⟨q, hn⟩
    have hpre : o.Pre prog (.caller e) s.mem := h.performs ho
    have hst : o.starts = none := callerNext_starts (h.pass_eq_none (by simp [hc]) e) hn
    have he : Queued (l ++ [o]) (Pool.dispatcher s) (Pool.worker s 0) (o.exec s.mem) :=
      Queued.other hq hpre (by simp) (by simp) hst
    rwa [InOrder, dispatcher_move_caller, worker_move_caller]

theorem PassesOver.send (hp : PassesOver s a = true) :
    ∃ x w todo r rs, a = dispatch ∧ dispatcher s = .send x w todo (r :: rs) := by
  obtain ⟨i, c⟩ := a
  simp only [PassesOver, Bool.and_eq_true, beq_iff_eq] at hp
  obtain ⟨rfl, hp⟩ := hp
  unfold DispatcherPc.passesOver at hp
  split at hp
  case h_1 hd => exact ⟨_, _, _, _, _, rfl, hd⟩
  case h_2 => cases hp

theorem PassesOver.performs (hp : PassesOver s a = true) :
    ∃ w x, Performs s a (.sendWorker w x) := by
  obtain ⟨x, w, todo, r, rs, rfl, hd⟩ := send hp
  have hn : dispatcherNext cfg (dispatcher s) s.mem =
      some (.fetchSub w todo (r :: rs), .sendWorker w x) := by
    rw [hd]
    rfl
  exact ⟨w, x, _, hn⟩

/-- After the dispatcher has passed over a task, the tasks are not sent in their order
any more. -/
theorem InOrder.broken (hq : InOrder l s) (h : Reachable s) (hp : PassesOver s a = true)
    {o : Op V P} (ho : Performs s a o) (l' : List (Op V P)) : ¬Fifo (l ++ o :: l') := by
  obtain ⟨x, w, todo, r, rs, rfl, hd⟩ := PassesOver.send hp
  obtain ⟨q, hn⟩ := ho
  have hn : dispatcherNext cfg (dispatcher s) s.mem = some (q, o) := hn
  have hnodup := h.dispatcher.tasks.holds.nodup
  have hord := hq.dispatched
  rw [hd] at hn hnodup hord
  cases hn
  -- the task that is sent is not the first one that stays behind
  have hne : x.id ≠ r.id := by
    intro he
    simp [DispatcherPc.tasks, fresh, he] at hnodup
  rintro ⟨hpre, -⟩
  rw [List.filterMap_append, List.filterMap_append, ← hord, List.append_assoc,
    List.prefix_append_right_inj] at hpre
  have hhead : x.id :: l'.filterMap Op.dispatches <+: r.id :: _ := hpre
  exact hne (List.cons_prefix_cons.mp hhead).1

/-- The order is kept exactly by the schedules along which the dispatcher passes over
no task. -/
theorem InOrder.fifo_iff (hc : cfg.threadCount = 1) (hpred : ∀ t, prog.pred t = none)
    (as : List (pool cfg prog).Action) : ∀ {s : (pool cfg prog).State} {l : List (Op V P)},
      as.all (!cancels ·) = true → Reachable s → ¬SomeCancel s.mem → InOrder l s →
        (Fifo (l ++ s.log as) ↔ s.along (fun s a => !PassesOver s a) as = true) := by
  induction as with
  | nil =>
      intro s l _ _ _ hq
      exact iff_of_true (by simpa [System.State.log] using hq.fifo) rfl
  | cons a as ih =>
      intro s l has h hcan hq
      simp only [List.all_cons, Bool.and_eq_true, Bool.not_eq_true'] at has
      cases hn : s.next a with
      | none =>
          have hp : PassesOver s a = false := by
            refine Bool.eq_false_iff.mpr fun hp => ?_
            obtain ⟨w, x, q, hq'⟩ := PassesOver.performs hp
            rw [hn] at hq'
            cases hq'
          have hs : s.step a = none := by rw [System.State.step, hn]; rfl
          rw [System.State.log_of_none hn, System.State.along, hs, hp]
          simpa using ih has.2 h hcan hq
      | some r =>
          obtain ⟨q, o⟩ := r
          have ho : Performs s a o := ⟨q, hn⟩
          have hs := System.State.step_of_next hn
          rw [System.State.log_of_next hn, System.State.along, hs, Option.getD_some]
          cases hp : PassesOver s a with
          | true => exact iff_of_false (hq.broken h hp ho _) (by simp)
          | false =>
              have hrest := ih has.2 (.step a h hs trivial) (noCancel_step hcan has.1 hs)
                (hq.step hc hpred h hcan hp ho hs)
              rw [List.append_assoc, List.singleton_append] at hrest
              simpa using hrest

/-- A pool with one thread sends the tasks without predecessor in the order in which
they were put on the submission channel, and starts their bodies in that order,
exactly if the dispatcher passes over no task. -/
theorem first_in_first_out (hc : cfg.threadCount = 1) (hpred : ∀ t, prog.pred t = none)
    (as : List (pool cfg prog).Action) (has : as.all (!cancels ·) = true) :
    Fifo ((poolInit cfg prog).log as) ↔
      (poolInit cfg prog).along (fun s a => !PassesOver s a) as = true :=
  InOrder.fifo_iff hc hpred as has .init noCancel_init .init

end Pool

/-! ## Two runs -/

/-- The tasks are not guarded, and may run on every thread. -/
structure Program.Plain (prog : Program V P) : Prop where
  wait : ∀ t, prog.wait t = []
  pred : ∀ t, prog.pred t = none
  preferredThread : ∀ t, prog.preferredThread t = none
  notOn : ∀ t, prog.notOn t = []

/-- A submit call that gives its tasks a label. -/
def Pool.prefers : (pool cfg prog).Action → Bool
  | ⟨.caller _, c⟩ => (CallerInput.label c).isSome
  | _ => false

/-- The tasks are sent and started in the order of the submission channel, whatever
the schedule. -/
def Pool.FirstInFirstOut (cfg : Specs) (prog : Program V P) : Prop :=
  ∀ as : List (pool cfg prog).Action, as.all (fun a => !cancels a && !prefers a) = true →
    Fifo ((poolInit cfg prog).log as)

set_option maxRecDepth 4000

theorem single_plain : single.Plain := by
  refine ⟨fun _ => rfl, fun t => ?_, fun _ => rfl, fun _ => rfl⟩
  cases t <;> rfl

/-- Three functions, which the dispatcher and the worker take in turns. -/
def threeTurns : List (pool Specs.one single).Action := submits 0 [0, 1, 2] ++ turns 70

theorem Pool.first_in_first_out_threeTurns :
    Fifo ((poolInit Specs.one single).log threeTurns) ∧
      ((poolInit Specs.one single).log threeTurns).filterMap Op.starts = [0, 1, 2] := by
  refine ⟨(first_in_first_out rfl single_plain.pred threeTurns ?_).mpr ?_, ?_⟩
  all_goals decide

/-- The worker finishes the first of three functions after the dispatcher has found no
slot for the second one, and before it looks for a slot for the third one. -/
def lateSlot : List (pool Specs.one single).Action :=
  submits 0 [0, 1, 2] ++ List.replicate 34 dispatch ++ List.replicate 7 (work 0 false) ++
    List.replicate 9 dispatch

/-- The third of three functions is sent before the second one. -/
theorem Pool.not_first_in_first_out :
    ¬∀ (cfg : Specs) (prog : Program Nat Nat), cfg.threadCount = 1 → prog.Plain →
      FirstInFirstOut cfg prog := by
  intro h
  obtain ⟨hsent, -⟩ := h Specs.one single rfl single_plain lateSlot (by decide)
  have hdispatched : ((poolInit _ _).log lateSlot).filterMap Op.dispatches = [0, 2] := by decide
  have hsubmitted : ((poolInit _ _).log lateSlot).filterMap Op.submits = [0, 1, 2] := by decide
  rw [hdispatched, hsubmitted] at hsent
  exact absurd hsent (by decide)

end MVSync
