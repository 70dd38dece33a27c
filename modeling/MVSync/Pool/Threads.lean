import MVSync.Pool.Outline

/-!
# The outline, thread by thread

For the dispatcher, the workers and the callers: the tasks that the thread has
at each position, what it has read on the way there, and that each of its steps
performs an operation it may perform and establishes this at the next position.
-/

namespace MVSync

open Concurrency

variable {V P : Type} {cfg : Specs} {prog : Program V P} {m m' : Shared V P} {i : Tid}
  {t : TaskId} {x : Task} {l l' : List (Task × Stage V P)}

/-- Tasks that were not found executable yet. -/
def fresh (xs : List Task) : List (Task × Stage V P) := xs.map fun x => (x, .fresh)

@[simp] theorem fresh_nil : (fresh [] : List (Task × Stage V P)) = [] := rfl

@[simp] theorem fresh_cons (x : Task) (xs : List Task) :
    (fresh (x :: xs) : List (Task × Stage V P)) = (x, .fresh) :: fresh xs := rfl

@[simp] theorem fresh_append (xs ys : List Task) :
    (fresh (xs ++ ys) : List (Task × Stage V P)) = fresh xs ++ fresh ys := List.map_append

theorem fresh_notSettling {xs : List Task} :
    ∀ x ∈ (fresh xs : List (Task × Stage V P)), x.2.settling = false := by
  intro x hx
  obtain ⟨y, -, rfl⟩ := List.mem_map.mp hx
  rfl

/-! ## Moving tasks between places -/

namespace Shared.Has

theorem recv (h : m.Has prog (.thread .dispatcher) l) (hpl : Places prog m) {c : List Task}
    (hc : m.channel = x :: c) :
    (Op.recv.exec m).Has prog (.thread .dispatcher) ((x, .fresh) :: l) := by
  have hm : (x, .fresh) ∈ m.channel.map fun x => (x, (Stage.fresh : Stage V P)) := by simp [hc]
  have ha : (m.modify x.id fun c => { c with owner := .thread .dispatcher }).Has prog
      (.thread .dispatcher) ((x, (m.cell x.id).stage) :: l) :=
    h.acquire (by simp [hpl.channel.owner_of_mem hm]) rfl (hpl.channel.built _ hm)
  rw [hpl.channel.stage_of_mem hm] at ha
  simp only [Op.exec, hc]
  exact ⟨ha.holds, ha.built⟩

theorem recvWorker {w : WorkerId} (h : m.Has prog (.thread (.worker w)) l) (hpl : Places prog m)
    {c : List Task} (hc : m.workerChannel w = x :: c) :
    ((Op.recvWorker w).exec m).Has prog (.thread (.worker w)) ((x, .passed) :: l) := by
  have hm : (x, .passed) ∈ (m.workerChannel w).map fun x => (x, (Stage.passed : Stage V P)) := by
    simp [hc]
  have hpl' := hpl.workerChannel w
  have ha : (m.modify x.id fun c => { c with owner := .thread (.worker w) }).Has prog
      (.thread (.worker w)) ((x, (m.cell x.id).stage) :: l) :=
    h.acquire (by simp [hpl'.owner_of_mem hm]) rfl (hpl'.built _ hm)
  rw [hpl'.stage_of_mem hm] at ha
  simp only [Op.exec, hc]
  exact ⟨ha.holds, ha.built⟩

theorem sendWorker {w : WorkerId} (h : m.Has prog (.thread i) ((x, .fresh) :: l)) :
    ((Op.sendWorker w x).exec m).Has prog (.thread i) l := by
  have hr : (m.modify x.id fun c => { c with owner := .workerChannel w, stage := .passed }).Has
      prog (.thread i) l := h.release nofun
  exact ⟨hr.holds, hr.built⟩

theorem send (h : m.Has prog (.thread i) ((x, .fresh) :: l)) :
    ((Op.send x).exec m).Has prog (.thread i) l := by
  have hr : (m.modify x.id fun c => { c with owner := .channel }).Has prog (.thread i) l :=
    h.release nofun
  exact ⟨hr.holds, hr.built⟩

/-- A thread none of whose tasks is being settled. -/
theorem notSettling (h : m.Has prog (.thread i) l) (hl : ∀ x ∈ l, x.2.settling = false) :
    m.NotSettling i := by
  intro t ht
  obtain ⟨x, -, hx⟩ := h.exists_mem ht
  exact hl _ hx

theorem notSettling_nil (h : m.Has prog (.thread i) []) : m.NotSettling i :=
  h.notSettling (by simp)

/-- A thread that drops its tasks has none. -/
theorem drop (m : Shared V P) (i : Tid) : (m.drop (.thread i)).Has prog (.thread i) [] :=
  nil_iff.mpr (Shared.drop_owner m nofun)

theorem dropDispatcher (m : Shared V P) :
    (Op.dropDispatcher.exec m).Has prog (.thread .dispatcher) [] := by
  have hd : ((m.drop (.thread .dispatcher)).drop .channel).Has prog (.thread .dispatcher) [] :=
    (drop m .dispatcher).frame (.drop nofun nofun)
  exact ⟨hd.holds, hd.built⟩

/-- The tasks that the user moves into a call. -/
theorem moveAll {e : CallerId} (h : m.Has prog (.thread (.caller e)) []) (hpl : Places prog m)
    {ts : List TaskId} (hn : ts.Nodup) (hu : ∀ t ∈ ts, (m.cell t).owner = .user)
    {f : Task → Task} (hid : ∀ x, (f x).id = x.id) (hf : ∀ x, prog.Built x → prog.Built (f x)) :
    (m.move ts (.thread (.caller e))).Has prog (.thread (.caller e))
      (fresh (ts.map fun t => f (prog.task t))) := by
  have hids : (fresh (ts.map fun t => f (prog.task t))).map
      (fun x : Task × Stage V P => (x.1.id, x.2)) = ts.map fun t => (t, .fresh) := by
    simp [fresh, hid, Program.task]
  refine ⟨⟨?_, fun t st => ?_⟩, fun x hx => ?_⟩
  · rw [hids, List.map_map]
    simpa [Function.comp_def] using hn
  · have hno : (m.cell t).owner ≠ .thread (.caller e) := nil_iff.mp h t
    rw [hids]
    by_cases ht : t ∈ ts
    · simp [Shared.move, ht, hpl.user t (hu t ht), eq_comm]
    · simp [Shared.move, ht, hno]
  · obtain ⟨y, hy, rfl⟩ := List.mem_map.mp hx
    obtain ⟨t, -, rfl⟩ := List.mem_map.mp hy
    exact hf _ (Program.built_task t)

end Shared.Has

/-! ## The dispatcher -/

/-- The tasks that the dispatcher has. -/
def DispatcherPc.tasks : DispatcherPc P → List (Task × Stage V P)
  | .top xs | .wait xs => fresh xs
  | .scan todo remaining | .fetchSub _ todo remaining | .wakeWorker _ todo remaining =>
      fresh (todo ++ remaining)
  | .canExecute x _ todo remaining | .isPanicked x todo remaining | .getPanic x todo remaining
  | .isCancelled x todo remaining | .isCancelledSelf x todo remaining
  | .replace x _ _ _ todo remaining | .select x _ _ todo remaining
  | .freeWorkers x _ todo remaining | .send x _ todo remaining =>
      (x, .fresh) :: fresh (todo ++ remaining)
  | .settle x site sp todo remaining => (x, sp.stage site) :: fresh (todo ++ remaining)
  | .exited | .panicked => []

/-- What the dispatcher has read of the guards of the task at hand. -/
def DispatcherPc.Knows (prog : Program V P) (m : Shared V P) : DispatcherPc P → Prop
  | .canExecute x ss _ _ => ∃ past, prog.wait x.id = past ++ ss ∧ ∀ s ∈ past, m.sem s = true
  | .isPanicked x _ _ | .isCancelled x _ _ | .getPanic x _ _ =>
      Waited prog m x.id ∧ m.predState x ≠ .pending
  | .isCancelledSelf x _ _ | .select x _ _ _ _ | .freeWorkers x _ _ _ | .send x _ _ _ =>
      Waited prog m x.id ∧ PredFinished prog m x.id
  | .replace x st f _ _ _ => Skips prog m x.id st f
  | .settle x _ sp _ _ => sp.Knows prog x m
  | _ => True

/-- What the dispatcher knows at a position. -/
structure DispatcherPc.Loc (prog : Program V P) (m : Shared V P) (p : DispatcherPc P) : Prop where
  tasks : m.Has prog (.thread .dispatcher) p.tasks
  knows : p.Knows prog m

theorem Shared.Grows.predState (hg : m.Grows m') (h : m.predState x ≠ .pending) :
    m'.predState x ≠ .pending := by
  unfold Shared.predState at h ⊢
  split at h
  · simp
  · exact (hg.cell _).state h

theorem DispatcherPc.Knows.mono {p : DispatcherPc P} (h : p.Knows prog m) (hg : m.Grows m') :
    p.Knows prog m' := by
  cases p with
  | canExecute x ss => exact h.imp fun past hp => ⟨hp.1, fun s hs => hg.sem s (hp.2 s hs)⟩
  | isPanicked x => exact ⟨hg.waited h.1, hg.predState h.2⟩
  | isCancelled x => exact ⟨hg.waited h.1, hg.predState h.2⟩
  | getPanic x => exact ⟨hg.waited h.1, hg.predState h.2⟩
  | isCancelledSelf x => exact ⟨hg.waited h.1, hg.predFinished h.2⟩
  | select x => exact ⟨hg.waited h.1, hg.predFinished h.2⟩
  | freeWorkers x => exact ⟨hg.waited h.1, hg.predFinished h.2⟩
  | send x => exact ⟨hg.waited h.1, hg.predFinished h.2⟩
  | replace x st f => exact hg.skips h
  | settle x site sp => exact SettlePc.Knows.mono h hg
  | _ => trivial

/-! What the state of the predecessor says. -/

theorem Inv.pred_panicked (hi : Inv prog m) (hb : prog.Built x) {q : Payload P}
    (hs : m.predState x = .panicked q) :
    ∃ p, prog.pred x.id = some p ∧ (m.cell p).finish = some .panicked := by
  unfold Shared.predState at hs
  rw [hb.pred] at hs
  split at hs
  · cases hs
  case h_2 p hp => exact ⟨p, hp, (hi.life.cell p).finish_of_panicked hs⟩

theorem Inv.pred_cancelled (hi : Inv prog m) (hs : m.predState x = .cancelled) :
    SomeCancel m := by
  unfold Shared.predState at hs
  split at hs
  · cases hs
  case h_2 p hp => exact hi.life.cancelled p hs

theorem Inv.pred_finished (hi : Inv prog m) (hb : prog.Built x)
    (hp : m.predState x ≠ .pending) (hc : m.predState x ≠ .cancelled) :
    PredFinished prog m x.id := by
  intro p hpx
  unfold Shared.predState at hp hc
  rw [hb.pred, hpx] at hp hc
  dsimp only at hp hc
  refine ⟨((hi.life.cell p).decided_of_state hp hc).1, ?_⟩
  cases hs : (m.cell p).state with
  | pending => exact absurd hs hp
  | ready => exact .inl ((hi.life.cell p).finish_of_ready hs)
  | panicked q => exact .inr ((hi.life.cell p).finish_of_panicked hs)
  | cancelled => exact absurd hs hc

/-- A list of tasks with the one at hand put last. -/
theorem perm_last {α : Type} (x : α) (xs ys : List α) :
    (x :: (xs ++ ys)).Perm (xs ++ (ys ++ [x])) := by
  rw [← List.append_assoc]
  exact (List.perm_append_singleton x (xs ++ ys)).symm

theorem Shared.Has.defer {o : Owner} {todo remaining : List Task}
    (h : m.Has prog o ((x, .fresh) :: fresh (todo ++ remaining))) :
    m.Has prog o (fresh (todo ++ (remaining ++ [x]))) := by
  refine h.perm ?_
  simpa using perm_last (x, (Stage.fresh : Stage V P)) (fresh todo) (fresh remaining)

/-- One step of the dispatcher. -/
theorem dispatcherNext_spec (hi : Inv prog m) {p p' : DispatcherPc P} {op : Op V P}
    (hl : p.Loc prog m) (h : dispatcherNext cfg p m = some (p', op)) :
    op.Pre prog .dispatcher m ∧ p'.Loc prog (op.exec m) := by
  obtain ⟨ht, hk⟩ := hl
  cases dispatcherNext_step h with
  | recv hc => exact ⟨⟨rfl, by simp [hc]⟩, ht.recv hi.places hc, trivial⟩
  | exit => exact ⟨rfl, ht.still rfl, trivial⟩
  | @tryRecv x y xs _ hc =>
      refine ⟨⟨rfl, by simp [hc]⟩, (ht.recv hi.places hc).perm ?_, trivial⟩
      simpa [DispatcherPc.tasks] using
        (List.perm_append_singleton (y, Stage.fresh) (fresh (x :: xs))).symm
  | received => exact ⟨trivial, by simpa [DispatcherPc.tasks] using ht, trivial⟩
  | emptied | sleep => exact ⟨trivial, ht, trivial⟩
  | next => exact ⟨trivial, ht, [], by simp [ht.head_built.wait], by simp⟩
  | @signalled x s ss todo remaining hs =>
      obtain ⟨past, hss, hpast⟩ := hk
      refine ⟨trivial, ht, past ++ [s], by simp [hss], fun s' hs' => ?_⟩
      rcases List.mem_append.mp hs' with hs' | hs'
      · exact hpast s' hs'
      · exact List.mem_singleton.mp hs' ▸ hs
  | @executable x _ _ hp =>
      obtain ⟨past, hss, hpast⟩ := hk
      have hw : Waited prog m x.id := fun s hs => hpast s (by simpa [hss] using hs)
      exact ⟨trivial, ht, hw, hp⟩
  | unsignalled | pending | busy => exact ⟨trivial, ht.defer, trivial⟩
  | isPanicked | notPanicked | preferred | noPreference | select | selected | free =>
      exact ⟨trivial, ht, hk⟩
  | getPanic hq =>
      obtain ⟨rfl, q, hs⟩ := TaskState.take_eq_panicked.mp hq
      exact ⟨trivial, ht, rfl, hi.pred_panicked ht.head_built hs⟩
  | panic =>
      have hns := ht.notSettling (List.forall_mem_cons.mpr ⟨rfl, fresh_notSettling⟩)
      exact ⟨⟨rfl, hns⟩, .dropDispatcher m, trivial⟩
  | predCancelled hs => exact ⟨trivial, ht, hi.pred_cancelled hs⟩
  | predNotCancelled hs =>
      exact ⟨trivial, ht, hk.1, hi.pred_finished ht.head_built hk.2 hs⟩
  | selfCancelled hs => exact ⟨trivial, ht, hi.life.cancelled _ hs⟩
  | @noLabel x =>
      have hx := ht.head_change x.removePreferredThread rfl ht.head_built.removePreferredThread
      exact ⟨trivial, hx.defer, trivial⟩
  | @noThread x =>
      have hx := ht.head_change x.clearNotOn rfl ht.head_built.clearNotOn
      exact ⟨trivial, hx.defer, trivial⟩
  | replace => exact ⟨⟨.inl ht.head_at, hk⟩, ht.stageOf rfl, .begin ht.head_built⟩
  | settle hs =>
      obtain ⟨hp, ht', hk'⟩ := settleNext_spec ht.head_built ht hk hs
      exact ⟨hp, ht', hk'⟩
  | settled hs =>
      obtain ⟨hp, ht'⟩ := settleNext_spec ht.head_built ht hk hs
      exact ⟨hp, ht', trivial⟩
  | send => exact ⟨⟨rfl, ht.head_at, ht.head_built, hk⟩, ht.sendWorker, trivial⟩
  | fetchSub => exact ⟨rfl, ht.still rfl, trivial⟩
  | wakeWorker => exact ⟨trivial, ht.still rfl, trivial⟩
  | wake => exact ⟨rfl, ht.still rfl, trivial⟩

/-! ## The workers -/

/-- The tasks of a list of futures. -/
def futs (fs : List (Fut V)) : List (Task × Stage V P) :=
  fs.map fun f => (f.task, (f.entry : PollPc V P).stage)

@[simp] theorem futs_nil : (futs [] : List (Task × Stage V P)) = [] := rfl

@[simp] theorem futs_cons (f : Fut V) (fs : List (Fut V)) :
    (futs (f :: fs) : List (Task × Stage V P)) =
      (f.task, (f.entry : PollPc V P).stage) :: futs fs := rfl

@[simp] theorem futs_append (fs gs : List (Fut V)) :
    (futs (fs ++ gs) : List (Task × Stage V P)) = futs fs ++ futs gs := List.map_append

/-- The tasks that a worker has. -/
def WorkerPc.tasks : WorkerPc V P → List (Task × Stage V P)
  | .top fs | .check fs | .wait fs => futs fs
  | .retain kept todo => futs (kept ++ todo)
  | .poll x p kept todo => (x, p.stage) :: futs (kept ++ todo)
  | .pendingArm x v kept todo => (x, .running v) :: futs (kept ++ todo)
  | .errArm x _ kept todo => (x, .panicking) :: futs (kept ++ todo)
  | .readyArm x kept todo => (x, .finished) :: futs (kept ++ todo)
  | .settle x site sp kept todo => (x, sp.stage site) :: futs (kept ++ todo)
  | .exited => []

/-- The futures that a worker keeps to poll them, again or for the first time. -/
def WorkerPc.futures : WorkerPc V P → List (Fut V)
  | .top fs | .check fs | .wait fs => fs
  | .retain kept todo | .poll _ _ kept todo | .errArm _ _ kept todo | .readyArm _ kept todo
  | .settle _ _ _ kept todo => kept ++ todo
  | .pendingArm x v kept todo => ⟨x, some v⟩ :: (kept ++ todo)
  | .exited => []

theorem WorkerPc.mem_tasks {p : WorkerPc V P} {f : Fut V} (h : f ∈ p.futures) :
    (f.task, (f.entry : PollPc V P).stage) ∈ p.tasks := by
  have hf : ∀ {fs : List (Fut V)}, f ∈ fs → (f.task, (f.entry : PollPc V P).stage) ∈ futs fs :=
    fun hf => List.mem_map.mpr ⟨f, hf, rfl⟩
  cases p with
  | top fs => exact hf h
  | check fs => exact hf h
  | wait fs => exact hf h
  | retain kept todo => exact hf h
  | poll x p kept todo => exact List.mem_cons_of_mem _ (hf h)
  | errArm x q kept todo => exact List.mem_cons_of_mem _ (hf h)
  | readyArm x kept todo => exact List.mem_cons_of_mem _ (hf h)
  | settle x site sp kept todo => exact List.mem_cons_of_mem _ (hf h)
  | pendingArm x v kept todo =>
      rcases List.mem_cons.mp h with rfl | h
      · exact List.mem_cons_self
      · exact List.mem_cons_of_mem _ (hf h)
  | exited => cases h

/-- What a worker has read. -/
def WorkerPc.Knows (prog : Program V P) (m : Shared V P) : WorkerPc V P → Prop
  | .poll x p _ _ => p.Knows prog x m
  | .settle x _ sp _ _ => sp.Knows prog x m
  | _ => True

/-- What a worker knows at a position. -/
structure WorkerPc.Loc (prog : Program V P) (w : WorkerId) (m : Shared V P) (p : WorkerPc V P) :
    Prop where
  tasks : m.Has prog (.thread (.worker w)) p.tasks
  knows : p.Knows prog m

theorem WorkerPc.Knows.mono {p : WorkerPc V P} (h : p.Knows prog m) (hg : m.Grows m') :
    p.Knows prog m' := by
  cases p with
  | poll x p => exact PollPc.Knows.mono h hg
  | settle x site sp => exact SettlePc.Knows.mono h hg
  | _ => trivial

/-- Where a poll begins, nothing has been read. -/
theorem Fut.entry_knows (f : Fut V) : (f.entry : PollPc V P).Knows prog x m := by
  unfold Fut.entry
  split <;> trivial

/-- A task after a step of its poll. -/
theorem Shared.Has.polled {o : Owner} {st st' : Stage V P} (h : m.Has prog o ((x, st) :: l))
    {op : Op V P} (hop : op.moveTo = some (x.id, st') ∨ op.still = true ∧ st' = st) :
    (op.exec m).Has prog o ((x, st') :: l) := by
  rcases hop with hop | ⟨hop, rfl⟩
  · exact h.stageOf hop
  · exact h.still hop

/-- One step of a worker. -/
theorem workerNext_spec (hi : Inv prog m) {w : WorkerId} {pends : Bool} {p p' : WorkerPc V P}
    {op : Op V P} (hl : p.Loc prog w m) (h : workerNext prog w pends p m = some (p', op)) :
    op.Pre prog (.worker w) m ∧ p'.Loc prog w (op.exec m) := by
  obtain ⟨ht, hk⟩ := hl
  cases workerNext_step h with
  | recv hc => exact ⟨⟨rfl, by simp [hc]⟩, ht.recvWorker hi.places hc, trivial⟩
  | @tryRecv f fs x _ hc =>
      refine ⟨⟨rfl, by simp [hc]⟩, (ht.recvWorker hi.places hc).perm ?_, trivial⟩
      simpa [WorkerPc.tasks, PollPc.stage] using
        (List.perm_append_singleton (x, Stage.passed) (futs (f :: fs))).symm
  | exit | received | emptied | sleep | again => exact ⟨trivial, ht, trivial⟩
  | retained => exact ⟨trivial, by simpa [WorkerPc.tasks] using ht, trivial⟩
  | @next f =>
      refine ⟨trivial, ht.perm ?_, f.entry_knows⟩
      simp only [WorkerPc.tasks, futs_append, futs_cons]
      exact List.perm_middle
  | more hp =>
      obtain ⟨hpre, hop, hk'⟩ := pollNext_spec hi ht.head_built ht.head_at hk hp
      exact ⟨hpre, ht.polled hop, hk'⟩
  | pending hp | err hp | ready hp =>
      obtain ⟨hpre, hop, -⟩ := pollNext_spec hi ht.head_built ht.head_at hk hp
      exact ⟨hpre, ht.polled hop, trivial⟩
  | @pendingCancelled x v _ _ hs =>
      exact ⟨⟨rfl, ⟨v, ht.head_at⟩, hs⟩, ht.stageOf rfl, .begin ht.head_built⟩
  | kept =>
      refine ⟨trivial, ht.perm ?_, trivial⟩
      simp only [WorkerPc.tasks, futs_append, futs_cons, futs_nil, List.append_assoc]
      exact List.perm_middle.symm
  | errArm => exact ⟨⟨rfl, ht.head_at⟩, ht.stageOf rfl, .begin ht.head_built⟩
  | readyArm => exact ⟨rfl, ht.still rfl, .begin ht.head_built⟩
  | settle hs =>
      obtain ⟨hp, ht', hk'⟩ := settleNext_spec ht.head_built ht hk hs
      exact ⟨hp, ht', hk'⟩
  | settled hs =>
      obtain ⟨hp, ht'⟩ := settleNext_spec ht.head_built ht hk hs
      exact ⟨hp, ht', trivial⟩
  | wake => exact ⟨rfl, ht.still rfl, trivial⟩

/-! ## The callers -/

/-- The tasks that a pass has besides the one at hand. -/
def Pass.tasks (p : Pass) : List (Task × Stage V P) := fresh (p.todo ++ p.newTasks)

/-- The tasks that a caller has, unless a panic unwinds and will drop them. -/
def CallerPc.tasks : CallerPc V P → Option (List (Task × Stage V P))
  | .idle | .waitSignal _ _ | .pollSignal _ _ _ | .takeState _ | .takeBuffer _ | .panicked _ =>
      some []
  | .sending _ xs => some (fresh xs)
  | .run p => some p.tasks
  | .isPanicked x p | .getPanic x p | .isCancelled x p | .isCancelledSelf x p
  | .canExecute x _ p | .replace x _ _ _ p => some ((x, .fresh) :: p.tasks)
  | .newSignal x p => some ((x, .passed) :: p.tasks)
  | .poll x pc p => some ((x, pc.stage) :: p.tasks)
  | .block x v p => some ((x, .running v) :: p.tasks)
  | .settle x site sp p => some ((x, sp.stage site) :: p.tasks)
  | .unwind _ => none

/-- The pass of a caller that runs tasks. -/
def CallerPc.pass : CallerPc V P → Option Pass
  | .run p | .isPanicked _ p | .getPanic _ p | .isCancelled _ p | .isCancelledSelf _ p
  | .canExecute _ _ p | .replace _ _ _ _ p | .newSignal _ p | .poll _ _ p | .block _ _ p
  | .settle _ _ _ p => some p
  | _ => none

/-- The handle of `t` was moved to caller `e`, and its result is not taken. -/
def Waits (prog : Program V P) (e : CallerId) (m : Shared V P) (t : TaskId) : Prop :=
  prog.succ t = none ∧ (m.cell t).handle = some e ∧ (m.cell t).result = none

/-- What a caller has read. -/
def CallerPc.Knows (prog : Program V P) (e : CallerId) (m : Shared V P) : CallerPc V P → Prop
  | .waitSignal t k | .pollSignal t k _ => k = .observer ∨ k = .handle ∧ Waits prog e m t
  | .takeState t => Waits prog e m t ∧ (m.cell t).wakes ≠ []
  | .takeBuffer t =>
      Waits prog e m t ∧ (m.cell t).wakes ≠ [] ∧ (m.cell t).finish = some .returned
  | .canExecute x ss _ => ∃ past, prog.wait x.id = past ++ ss ∧ ∀ s ∈ past, m.sem s = true
  | .replace x st f _ _ => Skips prog m x.id st f
  | .poll x pc _ => pc.Knows prog x m
  | .settle x _ sp _ => sp.Knows prog x m
  | _ => True

/-- What a caller knows at a position. -/
structure CallerPc.Loc (prog : Program V P) (e : CallerId) (m : Shared V P) (p : CallerPc V P) :
    Prop where
  tasks : ∀ l, p.tasks = some l → m.Has prog (.thread (.caller e)) l
  /-- A panic drops no task that is being settled. -/
  unwind : ∀ q, p = .unwind q → m.NotSettling (.caller e)
  /-- `run` keeps no task for another pass. -/
  pass : ∀ q, p.pass = some q → q.all = true ∨ q.newTasks = []
  knows : p.Knows prog e m

theorem Waits.rely {e : CallerId} (h : Waits prog e m t) (hr : Rely prog (.caller e) m m') :
    Waits prog e m' t := by
  obtain ⟨hs, hh, hres⟩ := h
  exact ⟨hs, (hr.grows.cell t).handle e hh, (hr.result e t rfl hs hh).trans hres⟩

theorem CallerPc.Knows.rely {e : CallerId} {p : CallerPc V P} (h : p.Knows prog e m)
    (hr : Rely prog (.caller e) m m') : p.Knows prog e m' := by
  cases p with
  | waitSignal t k => exact h.imp_right fun h => ⟨h.1, h.2.rely hr⟩
  | pollSignal t k => exact h.imp_right fun h => ⟨h.1, h.2.rely hr⟩
  | takeState t => exact ⟨h.1.rely hr, hr.grows.wakes_ne_nil h.2⟩
  | takeBuffer t =>
      exact ⟨h.1.rely hr, hr.grows.wakes_ne_nil h.2.1, (hr.grows.cell t).finish _ h.2.2⟩
  | canExecute x ss => exact h.imp fun past hp => ⟨hp.1, fun s hs => hr.grows.sem s (hp.2 s hs)⟩
  | replace x st f => exact hr.grows.skips h
  | poll x p => exact PollPc.Knows.mono h hr.grows
  | settle x site sp => exact SettlePc.Knows.mono h hr.grows
  | _ => trivial

theorem CallerPc.Loc.intro {e : CallerId} {p : CallerPc V P} (hl : p.tasks = some l)
    (ht : m.Has prog (.thread (.caller e)) l)
    (hp : ∀ q, p.pass = some q → q.all = true ∨ q.newTasks = []) (hk : p.Knows prog e m) :
    p.Loc prog e m :=
  ⟨fun _ hl' => Option.some.inj (hl.symm.trans hl') ▸ ht,
    fun _ he => (by simp [he, CallerPc.tasks] at hl), hp, hk⟩

/-- A position outside of a pass. -/
theorem CallerPc.Loc.outside {e : CallerId} {p : CallerPc V P} (hl : p.tasks = some l)
    (ht : m.Has prog (.thread (.caller e)) l) (hp : p.pass = none) (hk : p.Knows prog e m) :
    p.Loc prog e m :=
  .intro hl ht (by simp [hp]) hk

theorem CallerPc.Loc.of_unwind {e : CallerId} {q : Payload P} (h : m.NotSettling (.caller e)) :
    (.unwind q : CallerPc V P).Loc prog e m :=
  ⟨nofun, fun _ _ => h, nofun, trivial⟩

/-- A submit call changes the preferred thread of a task at most. -/
theorem CallerInput.built_of_submits {c : CallerInput} {all : Bool} {f : Task → Task}
    {ts : List TaskId} (h : c.submits = some (all, f, ts)) :
    (∀ x, (f x).id = x.id) ∧ ∀ x, prog.Built x → prog.Built (f x) := by
  cases c with
  | submit t | submitAll ts =>
      cases h
      exact ⟨fun _ => rfl, fun _ => id⟩
  | submitOn t thread | submitAllOn ts thread =>
      cases h
      exact ⟨fun _ => rfl, fun _ hb => hb.setPreferredThread thread⟩
  | _ => cases h

/-- What follows a wait on a woken signal. -/
theorem Taker.resume_loc {e : CallerId} {k : Taker} (ht : m.Has prog (.thread (.caller e)) [])
    (hk : k = .observer ∨ k = .handle ∧ Waits prog e m t) (hw : (m.cell t).wakes ≠ []) :
    (k.resume t).Loc prog e m := by
  rcases hk with rfl | ⟨rfl, hwt⟩
  · exact .outside rfl ht rfl trivial
  · exact .intro rfl ht nofun ⟨hwt, hw⟩

/-- One step of a caller. -/
theorem callerNext_spec (hi : Inv prog m) {e : CallerId} {c : CallerInput}
    {p p' : CallerPc V P} {op : Op V P} (hl : p.Loc prog e m)
    (h : callerNext cfg prog e c p m = some (p', op)) :
    op.Pre prog (.caller e) m ∧ p'.Loc prog e (op.exec m) := by
  obtain ⟨ht, hu, hq, hk⟩ := hl
  cases callerNext_step h with
  | inline _ hs =>
      obtain ⟨-, hn, ho⟩ := hs
      refine ⟨⟨rfl, hn, ho⟩, .intro rfl ?_ (by simp [CallerPc.pass, Pass.begin]) trivial⟩
      simpa [Pass.tasks, Pass.begin, Op.exec] using
        (ht _ rfl).moveAll hi.places hn ho (f := id) (fun _ => rfl) (fun _ => id)
  | submit hc hs =>
      obtain ⟨-, hn, ho⟩ := hs
      obtain ⟨hid, hf⟩ := CallerInput.built_of_submits hc
      have hm := (ht _ rfl).moveAll hi.places hn ho hid hf
      exact ⟨⟨rfl, hn, ho⟩, .outside rfl ⟨hm.holds, hm.built⟩ rfl trivial⟩
  | cancel | wakeWorker | wakeCaller | dropQueue =>
      exact ⟨trivial, .outside rfl ((ht _ rfl).still rfl) rfl trivial⟩
  | @handleWait t hw | @handleWaitAsync t hw =>
      refine ⟨⟨rfl, hw⟩, .outside rfl ((ht _ rfl).still rfl) rfl (.inr ⟨rfl, hw.1, ?_, ?_⟩)⟩
      · simp [Op.exec]
      · simpa [Op.exec] using hi.places.unheld t hw.1 hw.2
  | wait | waitAsync => exact ⟨trivial, .outside rfl (ht _ rfl) rfl (.inl rfl)⟩
  | unbound => exact ⟨trivial, .of_unwind (ht _ rfl).notSettling_nil⟩
  | endSubmit => exact ⟨⟨e, rfl⟩, .outside rfl ((ht _ rfl).still rfl) rfl trivial⟩
  | send =>
      replace ht := ht _ rfl
      exact ⟨⟨⟨e, rfl⟩, ht.head_at, ht.head_built⟩, .outside rfl ht.send rfl trivial⟩
  | failSubmit =>
      have hd : (m.drop (.thread (.caller e))).Has prog (.thread (.caller e)) [] :=
        .drop m (.caller e)
      exact ⟨⟨rfl, (ht _ rfl).notSettling fresh_notSettling⟩,
        .outside rfl ⟨hd.holds, hd.built⟩ rfl trivial⟩
  | @wake t k hr =>
      replace ht := ht _ rfl
      have hpre : (Op.waitSignal t k).Pre prog (.caller e) m := by
        refine ⟨hr, hk.imp_right ?_⟩
        rintro ⟨rfl, hs, hh, -⟩
        exact ⟨hs, e, rfl, hh⟩
      have hw := (Op.grows hi.life hpre).wakes_ne_nil (hi.life.wakes_of_ready hr)
      rcases hk with rfl | ⟨rfl, hs, hh, hres⟩
      · exact ⟨hpre, Taker.resume_loc (ht.still rfl) (.inl rfl) hw⟩
      · refine ⟨hpre, Taker.resume_loc (ht.still rfl) (.inr ⟨rfl, hs, ?_, ?_⟩) hw⟩
        · simpa [Op.exec, Taker.advance] using hh
        · simpa [Op.exec, Taker.advance] using hres
  | polled hr => exact ⟨trivial, Taker.resume_loc (ht _ rfl) hk (hi.life.wakes_of_ready hr)⟩
  | notPolled =>
      refine ⟨trivial, .outside rfl ((ht _ rfl).still rfl) rfl (hk.imp_right ?_)⟩
      rintro ⟨rfl, hs, hh, hres⟩
      exact ⟨rfl, hs, by simpa [Op.exec] using hh, by simpa [Op.exec] using hres⟩
  | @takeReady t hst =>
      obtain ⟨hwaits, hw⟩ := hk
      have hf := (hi.life.cell t).finish_of_ready hst
      exact ⟨trivial, .outside rfl (ht _ rfl) rfl ⟨hwaits, hw, hf⟩⟩
  | @takePanicked t _ hst =>
      obtain ⟨⟨hs, hh, hres⟩, hw⟩ := hk
      obtain ⟨rfl, q, hst⟩ := TaskState.take_eq_panicked.mp hst
      have hf := (hi.life.cell t).finish_of_panicked hst
      exact ⟨⟨hw, hres, ⟨hs, e, rfl, hh⟩, .inl ⟨hf, rfl⟩⟩,
        .outside rfl ((ht _ rfl).still rfl) rfl trivial⟩
  | takeCancelled hst =>
      obtain ⟨⟨hs, hh, hres⟩, hw⟩ := hk
      exact ⟨⟨hw, hres, ⟨hs, e, rfl, hh⟩, .inr ⟨hst, rfl⟩⟩,
        .outside rfl ((ht _ rfl).still rfl) rfl trivial⟩
  | @takePending t hst =>
      exact absurd hst ((hi.life.cell t).woken_of_wakes hk.2).state_ne_pending
  | takeBuffer hv =>
      obtain ⟨⟨hs, hh, hres⟩, hw, hf⟩ := hk
      exact ⟨⟨hw, hres, ⟨hs, e, rfl, hh⟩, hf, hv⟩,
        .outside rfl ((ht _ rfl).still rfl) rfl trivial⟩
  | @takeNone t hv =>
      obtain ⟨⟨-, -, hres⟩, hw, hf⟩ := hk
      exact absurd hv (((hi.life.cell t).woken_of_wakes hw).buffer_ne_none hf hres)
  | next hn =>
      have hp := hq _ rfl
      refine ⟨trivial, .intro rfl ?_ ?_ trivial⟩
      · simpa [Pass.tasks, hn] using ht _ rfl
      · rintro q ⟨⟩
        exact hp
  | endRun hn ha =>
      have hnew := (hq _ rfl).resolve_left (by simp [ha])
      exact ⟨trivial, .outside rfl (by simpa [Pass.tasks, hn, hnew] using ht _ rfl) rfl trivial⟩
  | again hn =>
      refine ⟨trivial, .intro rfl ?_ (by simp [CallerPc.pass, Pass.begin]) trivial⟩
      simpa [Pass.tasks, Pass.begin, hn] using ht _ rfl
  | giveUp =>
      exact ⟨⟨rfl, (ht _ rfl).notSettling fresh_notSettling⟩, .outside rfl (.drop m _) rfl trivial⟩
  | isPanicked | notPanicked | predNotCancelled =>
      exact ⟨trivial, .intro rfl (ht _ rfl) hq trivial⟩
  | getPanic hs =>
      replace ht := ht _ rfl
      obtain ⟨rfl, q, hs⟩ := TaskState.take_eq_panicked.mp hs
      exact ⟨trivial, .intro rfl ht hq ⟨rfl, hi.pred_panicked ht.head_built hs⟩⟩
  | panic =>
      have hn := (ht _ rfl).notSettling (List.forall_mem_cons.mpr ⟨rfl, fresh_notSettling⟩)
      exact ⟨trivial, .of_unwind hn⟩
  | predCancelled hs => exact ⟨trivial, .intro rfl (ht _ rfl) hq (hi.pred_cancelled hs)⟩
  | selfCancelled hs => exact ⟨trivial, .intro rfl (ht _ rfl) hq (hi.life.cancelled _ hs)⟩
  | selfNotCancelled =>
      replace ht := ht _ rfl
      exact ⟨trivial, .intro rfl ht hq ⟨[], by simp [ht.head_built.wait], by simp⟩⟩
  | @signalled x s ss p hs =>
      obtain ⟨past, hss, hpast⟩ := hk
      refine ⟨trivial, .intro rfl (ht _ rfl) hq ⟨past ++ [s], by simp [hss], fun s' hs' => ?_⟩⟩
      rcases List.mem_append.mp hs' with hs' | hs'
      · exact hpast s' hs'
      · exact List.mem_singleton.mp hs' ▸ hs
  | unsignalledKept _ ha | predPendingKept _ ha =>
      refine ⟨trivial, .intro rfl (ht _ rfl).defer ?_ trivial⟩
      rintro q ⟨⟩
      exact .inl ha
  | unsignalledDropped | predPendingDropped =>
      have hp := hq _ rfl
      replace ht := ht _ rfl
      refine ⟨⟨⟨e, rfl⟩, ht.head_at⟩, .intro rfl ?_ ?_ trivial⟩
      · simp only [Op.exec]
        exact ht.release (by simp)
      · rintro q ⟨⟩
        exact hp
  | @pass x =>
      obtain ⟨past, hss, hpast⟩ := hk
      replace ht := ht _ rfl
      have hw : Waited prog m x.id := fun s hs => hpast s (by simpa [hss] using hs)
      exact ⟨⟨ht.head_at, hw⟩, .intro rfl (ht.stageOf rfl) hq trivial⟩
  | replace =>
      replace ht := ht _ rfl
      exact ⟨⟨.inl ht.head_at, hk⟩, .intro rfl (ht.stageOf rfl) hq (.begin ht.head_built)⟩
  | newSignal => exact ⟨rfl, .intro rfl ((ht _ rfl).still rfl) hq trivial⟩
  | more hp =>
      replace ht := ht _ rfl
      obtain ⟨hpre, hop, hk'⟩ := pollNext_spec hi ht.head_built ht.head_at hk hp
      exact ⟨hpre, .intro rfl (ht.polled hop) hq hk'⟩
  | pending hp =>
      replace ht := ht _ rfl
      obtain ⟨hpre, hop, -⟩ := pollNext_spec hi ht.head_built ht.head_at hk hp
      exact ⟨hpre, .intro rfl (ht.polled hop) hq trivial⟩
  | err hp =>
      replace ht := ht _ rfl
      obtain ⟨hpre, hop, -⟩ := pollNext_spec hi ht.head_built ht.head_at hk hp
      have hn := (ht.polled hop).notSettling (List.forall_mem_cons.mpr ⟨rfl, fresh_notSettling⟩)
      exact ⟨hpre, .of_unwind hn⟩
  | ready hp =>
      replace ht := ht _ rfl
      obtain ⟨hpre, hop, -⟩ := pollNext_spec hi ht.head_built ht.head_at hk hp
      exact ⟨hpre, .intro rfl (ht.polled hop) hq (.begin ht.head_built)⟩
  | unblock => exact ⟨rfl, .intro rfl ((ht _ rfl).still rfl) hq trivial⟩
  | settle hs =>
      replace ht := ht _ rfl
      obtain ⟨hp, ht', hk'⟩ := settleNext_spec ht.head_built ht hk hs
      exact ⟨hp, .intro rfl ht' hq hk'⟩
  | settled hs =>
      replace ht := ht _ rfl
      have hpass := hq _ rfl
      obtain ⟨hp, ht'⟩ := settleNext_spec ht.head_built ht hk hs
      refine ⟨hp, .intro rfl ht' ?_ trivial⟩
      rintro q ⟨⟩
      exact hpass
  | unwind => exact ⟨⟨rfl, hu _ rfl⟩, .outside rfl (.drop m _) rfl trivial⟩

/-! ## The outline -/

/-- What a thread knows at a position. -/
def Tid.Loc (prog : Program V P) : (i : Tid) → Tid.Pc V P i → Shared V P → Prop
  | .dispatcher, p, m => DispatcherPc.Loc prog m p
  | .worker w, p, m => WorkerPc.Loc prog w m p
  | .caller e, p, m => CallerPc.Loc prog e m p

/-- The proof outline of the pool. -/
def outline (cfg : Specs) (prog : Program V P) : System.Outline (pool cfg prog) where
  inv := Inv prog
  loc := Tid.Loc prog
  pre i o m := o.Pre prog i m
  rely := Rely prog
  allowed {i} _ _ _ _ _ h hi hl := by
    cases i with
    | dispatcher => exact (dispatcherNext_spec hi hl h).1
    | worker w => exact (workerNext_spec hi hl h).1
    | caller e => exact (callerNext_spec hi hl h).1
  established {i} _ _ _ _ _ h hi hl := by
    cases i with
    | dispatcher => exact (dispatcherNext_spec hi hl h).2
    | worker w => exact (workerNext_spec hi hl h).2
    | caller e => exact (callerNext_spec hi hl h).2
  kept hi hp := hi.exec hp
  guarantee hi hp hj := hi.rely hp hj
  stable {j _ _ _} hl hr := by
    cases j with
    | dispatcher => exact ⟨hl.tasks.frame hr.frame, hl.knows.mono hr.grows⟩
    | worker w => exact ⟨hl.tasks.frame hr.frame, hl.knows.mono hr.grows⟩
    | caller e =>
        refine ⟨fun l hl' => (hl.tasks l hl').frame hr.frame, fun q hq t ht => ?_, hl.pass,
          hl.knows.rely hr⟩
        have ho := (hr.frame t).1.mp ht
        rw [(hr.frame t).2 ho]
        exact hl.unwind q hq t ho

/-- The outline holds when the pool starts. -/
theorem outline_init (cfg : Specs) (prog : Program V P) :
    (outline cfg prog).Holds (poolInit cfg prog) where
  inv := ⟨.init cfg, .init cfg, .init cfg⟩
  loc i := by
    have hnil : ∀ i, (Shared.init cfg : Shared V P).Has prog (.thread i) [] :=
      fun i => Shared.Has.nil_iff.mpr fun _ => nofun
    cases i with
    | dispatcher => exact ⟨hnil _, trivial⟩
    | worker w => exact ⟨hnil _, trivial⟩
    | caller e => exact .outside rfl (hnil _) rfl trivial

namespace Pool.Reachable

variable {s : (pool cfg prog).State}

theorem holds (h : Reachable s) : (outline cfg prog).Holds s :=
  (outline cfg prog).sound (outline_init cfg prog) h

theorem inv (h : Reachable s) : Inv prog s.mem := h.holds.inv

theorem dispatcher (h : Reachable s) : (Pool.dispatcher s).Loc prog s.mem := h.holds.loc .dispatcher

theorem worker (h : Reachable s) (w : WorkerId) : (Pool.worker s w).Loc prog w s.mem :=
  h.holds.loc (.worker w)

theorem caller (h : Reachable s) (e : CallerId) : (Pool.caller s e).Loc prog e s.mem :=
  h.holds.loc (.caller e)

/-- In a reachable state a step performs an operation that its thread may
perform. -/
theorem pre (h : Reachable s) {a : (pool cfg prog).Action} {p : Tid.Pc V P a.tid} {o : Op V P}
    (hn : s.next a = some (p, o)) : o.Pre prog a.tid s.mem :=
  (outline cfg prog).allowed hn h.inv (h.holds.loc a.tid)

/-- What happened stays so. -/
theorem grows (h : Reachable s) {a : (pool cfg prog).Action} {s' : (pool cfg prog).State}
    (hs : s.step a = some s') : s.mem.Grows s'.mem := by
  obtain ⟨p, o, hn, rfl⟩ := System.State.step_cases hs
  exact Op.grows h.inv.life (h.pre hn)

theorem grows_reach (h : Reachable s) {s' : (pool cfg prog).State} (hr : System.Reach s s') :
    s.mem.Grows s'.mem := by
  induction hr with
  | init => exact .refl _
  | step a hr hs _ ih => exact ih.trans (grows (h.trans hr) hs)

end Pool.Reachable

end MVSync
