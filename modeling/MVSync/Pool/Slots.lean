import MVSync.Pool.Settlement

/-!
# Worker slots

The counter `free_workers` of a worker says how many more tasks it takes.  The
dispatcher lowers it for every task it sends, and the worker raises it in the
`Ready` arm of its poll loop.  The other two arms through which a task leaves a
worker, `Err` and the cancelled branch of `Pending`, do not raise it.

`SlotsOk` balances the counter against the tasks that are with the worker and
the ones that left it by those two arms.
-/

namespace MVSync

open Concurrency Pool

variable {V P : Type} {cfg : Specs} {prog : Program V P} {m : Shared V P} {i : Tid}
  {w : WorkerId} {op : Op V P}

/-! ## The balance of a worker -/

/-- The tasks of a worker that hold a slot: the ones it keeps, and the one at
hand until an arm of the poll loop is through with its counter. -/
def WorkerPc.load : WorkerPc V P → Nat
  | .top fs | .check fs | .wait fs => fs.length
  | .retain kept todo | .settle _ _ _ kept todo => kept.length + todo.length
  | .poll _ _ kept todo | .pendingArm _ _ kept todo | .errArm _ _ kept todo
  | .readyArm _ kept todo => kept.length + todo.length + 1
  | .exited => 0

/-- The tasks that the dispatcher sent to `w`, and whose slot it still has to
count. -/
def DispatcherPc.sent (w : WorkerId) : DispatcherPc P → Nat
  | .fetchSub v _ _ => if v = w then 1 else 0
  | _ => 0

/-- The slots of `w` that the dispatcher has seen free, and is about to take. -/
def DispatcherPc.claims (w : WorkerId) : DispatcherPc P → Nat
  | .send _ v _ _ | .fetchSub v _ _ => if v = w then 1 else 0
  | _ => 0

/-- The balance of worker `w`, of which `load` slots are held by tasks in its
variables.  The counter does not wrap around. -/
def SlotsOk (cfg : Specs) (m : Shared V P) (w : WorkerId) (p : DispatcherPc P) (load : Nat) :
    Prop :=
  ∃ free : Nat, m.freeWorkers w = UInt32.ofNat free ∧
    free + load + (m.workerChannel w).length + m.leaked w =
      cfg.workersPerThread.toNat + p.sent w ∧ p.claims w ≤ free

/-- The operations that leave all slots as they are. -/
def Op.keepsSlots : Op V P → Bool
  | .sendWorker _ _ | .fetchSub _ | .recvWorker _ | .fetchAdd _ | .replacePanicked _ _ _
  | .foundCancelled _ _ => false
  | _ => true

/-- The slots of `w` are the same. -/
structure SameSlots (w : WorkerId) (m m' : Shared V P) : Prop where
  free : m'.freeWorkers w = m.freeWorkers w
  channel : m'.workerChannel w = m.workerChannel w
  leaked : m'.leaked w = m.leaked w

theorem Op.sameSlots_of_keeps (h : op.keepsSlots = true) : SameSlots w m (op.exec m) := by
  cases op <;> simp only [Op.keepsSlots, Bool.false_eq_true] at h <;> simp only [Op.exec]
  case waitSignal t k => cases k <;> exact ⟨rfl, rfl, rfl⟩
  case takeResult t k r => cases k <;> exact ⟨rfl, rfl, rfl⟩
  case takeBuffer t k v => cases k <;> exact ⟨rfl, rfl, rfl⟩
  case recv => split <;> exact ⟨rfl, rfl, rfl⟩
  all_goals exact ⟨rfl, rfl, rfl⟩

/-- The slots of `w` are changed by the dispatcher and by `w` itself. -/
theorem Op.sameSlots_of_other (hp : op.Pre prog i m) (hd : i ≠ .dispatcher)
    (hw : i ≠ .worker w) : SameSlots w m (op.exec m) := by
  have hne : ∀ {v}, i = .worker v → w ≠ v := fun hv he => hw (he ▸ hv)
  cases hk : op.keepsSlots with
  | true => exact sameSlots_of_keeps hk
  | false =>
      cases op <;> simp only [Op.keepsSlots, reduceCtorEq] at hk <;> simp only [Op.exec]
      case sendWorker v x => exact absurd hp.1 hd
      case fetchSub v => exact absurd hp hd
      case recvWorker v =>
        split
        · exact ⟨rfl, rfl, rfl⟩
        · exact ⟨rfl, by simp [hne hp.1], rfl⟩
      case fetchAdd v => exact ⟨by simp [hne hp], rfl, rfl⟩
      case replacePanicked t q v => exact ⟨rfl, rfl, by simp [hne hp.1]⟩
      case foundCancelled t v => exact ⟨rfl, rfl, by simp [hne hp.1]⟩

theorem Op.keepsSlots_of_ofFuture (h : op.ofFuture = true) : op.keepsSlots = true := by
  cases op <;> first | rfl | cases h

/-! ## The dispatcher -/

/-- The dispatcher has to do with slots when it finds one free, sends a task,
and counts it. -/
theorem dispatcherNext_slots {p p' : DispatcherPc P}
    (hn : dispatcherNext cfg p m = some (p', op)) :
    op.keepsSlots = true ∧ (∀ w, p.sent w = 0 ∧ p'.sent w = 0 ∧ p'.claims w = 0) ∨
      (∃ x w todo remaining, p = .freeWorkers x w todo remaining ∧ m.freeWorkers w > 0 ∧
        p' = .send x w todo remaining ∧ op = .tau) ∨
      (∃ x w todo remaining, p = .send x w todo remaining ∧
        p' = .fetchSub w todo remaining ∧ op = .sendWorker w x) ∨
      ∃ w todo remaining, p = .fetchSub w todo remaining ∧
        p' = .wakeWorker w todo remaining ∧ op = .fetchSub w := by
  cases dispatcherNext_step hn with
  | settle hs =>
      exact .inl ⟨Op.keepsSlots_of_ofFuture (settleNext_ofFuture hs), fun _ => ⟨rfl, rfl, rfl⟩⟩
  | settled hs =>
      exact .inl ⟨Op.keepsSlots_of_ofFuture (settleNext_ofFuture hs), fun _ => ⟨rfl, rfl, rfl⟩⟩
  | free hw => exact .inr (.inl ⟨_, _, _, _, rfl, hw, rfl, rfl⟩)
  | send => exact .inr (.inr (.inl ⟨_, _, _, _, rfl, rfl, rfl⟩))
  | fetchSub => exact .inr (.inr (.inr ⟨_, _, _, rfl, rfl, rfl⟩))
  | _ => exact .inl ⟨rfl, fun _ => ⟨rfl, rfl, rfl⟩⟩

namespace SlotsOk

variable {p p' : DispatcherPc P} {load load' : Nat}

theorem same (h : SlotsOk cfg m w p load) {m' : Shared V P} (hm : SameSlots w m m')
    (hs : p'.sent w = p.sent w) (hc : p'.claims w ≤ p.claims w) : SlotsOk cfg m' w p' load := by
  obtain ⟨free, hf, hb, hcl⟩ := h
  refine ⟨free, hm.free.trans hf, ?_, Nat.le_trans hc hcl⟩
  rw [hm.channel, hm.leaked, hs, hb]

/-- One step of the dispatcher. -/
theorem dispatcher (h : SlotsOk cfg m w p load) (hn : dispatcherNext cfg p m = some (p', op)) :
    SlotsOk cfg (op.exec m) w p' load := by
  rcases dispatcherNext_slots hn with ⟨hk, hq⟩ | ⟨x, v, todo, remaining, rfl, hv, rfl, rfl⟩ |
    ⟨x, v, todo, remaining, rfl, rfl, rfl⟩ | ⟨v, todo, remaining, rfl, rfl, rfl⟩
  · obtain ⟨hs, hs', hc'⟩ := hq w
    exact h.same (Op.sameSlots_of_keeps hk) (hs'.trans hs.symm) (by omega)
  · obtain ⟨free, hf, hb, -⟩ := h
    refine ⟨free, hf, hb, ?_⟩
    simp only [DispatcherPc.claims]
    split
    case isTrue he =>
      subst he
      rcases Nat.eq_zero_or_pos free with rfl | hpos
      · rw [hf] at hv
        exact absurd hv (by decide)
      · exact hpos
    case isFalse => exact Nat.zero_le free
  · obtain ⟨free, hf, hb, hc⟩ := h
    refine ⟨free, hf, ?_, hc⟩
    by_cases hv : v = w
    · subst hv
      simp only [DispatcherPc.sent, Op.exec, Function.update_self, List.length_append,
        List.length_singleton, Shared.modify_leaked, if_true] at hb ⊢
      omega
    · have hv' : w ≠ v := Ne.symm hv
      simpa [Op.exec, DispatcherPc.sent, hv, hv'] using hb
  · obtain ⟨free, hf, hb, hc⟩ := h
    by_cases hv : v = w
    · subst hv
      simp only [DispatcherPc.sent, DispatcherPc.claims, if_true] at hb hc
      refine ⟨free - 1, ?_, ?_, Nat.zero_le _⟩
      · simp [Op.exec, hf, UInt32.ofNat_sub hc]
      · simp only [Op.exec, DispatcherPc.sent]
        omega
    · have hv' : w ≠ v := Ne.symm hv
      refine ⟨free, by simpa [Op.exec, hv'] using hf, ?_, Nat.zero_le _⟩
      simpa [Op.exec, DispatcherPc.sent, hv] using hb

end SlotsOk

/-! ## The workers -/

/-- A worker has to do with slots when it takes a task from its channel, and in
the three arms of its poll loop through which a task leaves it. -/
theorem workerNext_slots {pends : Bool} {q q' : WorkerPc V P}
    (hn : workerNext prog w pends q m = some (q', op)) :
    op.keepsSlots = true ∧ q'.load = q.load ∨
      (op = .recvWorker w ∧ m.workerChannel w ≠ [] ∧ q'.load = q.load + 1) ∨
      (op = .fetchAdd w ∧ q.load = q'.load + 1) ∨
      ((∃ t, (∃ r, op = .replacePanicked t r w) ∨ op = .foundCancelled t w) ∧
        q.load = q'.load + 1) := by
  cases workerNext_step hn with
  | recv hc | tryRecv hc => exact .inr (.inl ⟨rfl, by simp [hc], by simp [WorkerPc.load]⟩)
  | more hp | pending hp | err hp | ready hp =>
      exact .inl ⟨Op.keepsSlots_of_ofFuture (pollNext_ofFuture hp), rfl⟩
  | settle hs | settled hs => exact .inl ⟨Op.keepsSlots_of_ofFuture (settleNext_ofFuture hs), rfl⟩
  | pendingCancelled => exact .inr (.inr (.inr ⟨⟨_, .inr rfl⟩, rfl⟩))
  | errArm => exact .inr (.inr (.inr ⟨⟨_, .inl ⟨_, rfl⟩⟩, rfl⟩))
  | readyArm => exact .inr (.inr (.inl ⟨rfl, rfl⟩))
  | received | kept =>
      refine .inl ⟨rfl, ?_⟩
      simp only [WorkerPc.load, List.length_append, List.length_cons, List.length_nil]
      omega
  | _ => exact .inl ⟨rfl, rfl⟩


namespace SlotsOk

/-- One step of the worker. -/
theorem worker {p : DispatcherPc P} {pends : Bool} {q q' : WorkerPc V P}
    (h : SlotsOk cfg m w p q.load) (hn : workerNext prog w pends q m = some (q', op)) :
    SlotsOk cfg (op.exec m) w p q'.load := by
  rcases workerNext_slots hn with ⟨hk, hl⟩ | ⟨rfl, hc, hl⟩ | ⟨rfl, hl⟩ | ⟨⟨t, ho⟩, hl⟩
  · rw [hl]
    exact h.same (Op.sameSlots_of_keeps hk) rfl (Nat.le_refl _)
  · obtain ⟨free, hf, hb, hcl⟩ := h
    obtain ⟨x, c, hx⟩ := List.exists_cons_of_ne_nil hc
    refine ⟨free, by simpa [Op.exec, hx] using hf, ?_, hcl⟩
    simp only [hx, List.length_cons, Op.exec, Function.update_self, Shared.modify_leaked] at hb ⊢
    omega
  · obtain ⟨free, hf, hb, hcl⟩ := h
    refine ⟨free + 1, by simp [Op.exec, hf, UInt32.ofNat_add], ?_, by omega⟩
    simp only [Op.exec] at hb ⊢
    omega
  · obtain ⟨free, hf, hb, hcl⟩ := h
    rcases ho with ⟨r, rfl⟩ | rfl
    all_goals
      refine ⟨free, hf, ?_, hcl⟩
      simp only [Op.exec, Function.update_self, Shared.modify_workerChannel]
      omega

end SlotsOk

namespace Pool

variable {s s' : (pool cfg prog).State} {a : (pool cfg prog).Action}

theorem Reachable.slots_init (w : WorkerId) :
    SlotsOk cfg (poolInit cfg prog).mem w (.top []) 0 :=
  ⟨cfg.workersPerThread.toNat, by simp [poolInit, Shared.init],
    by simp [poolInit, Shared.init, DispatcherPc.sent], Nat.zero_le _⟩

/-- The slots of every worker are balanced. -/
theorem Reachable.slots (h : Reachable s) (w : WorkerId) :
    SlotsOk cfg s.mem w (Pool.dispatcher s) (Pool.worker s w).load := by
  refine h.invariant (I := fun s => SlotsOk cfg s.mem w (Pool.dispatcher s) (Pool.worker s w).load)
    (slots_init w) ?_
  intro s s' a hr hi hs _
  rcases step_cases hs with ⟨q, o, rfl, hn, rfl⟩ | ⟨v, pends, q, o, rfl, hn, rfl⟩ |
    ⟨e, c, q, o, rfl, hn, rfl⟩
  · rw [dispatcher_move, worker_move_dispatcher]
    exact hi.dispatcher hn
  · rw [dispatcher_move_worker]
    by_cases hv : w = v
    · subst hv
      rw [worker_move]
      exact hi.worker hn
    · have hpre := (workerNext_spec (Reachable.inv hr) (Reachable.worker hr v) hn).1
      rw [worker_move_of_ne s o hv]
      exact hi.same (Op.sameSlots_of_other hpre nofun (by simpa using Ne.symm hv)) rfl
        (Nat.le_refl _)
  · have hpre := (callerNext_spec (Reachable.inv hr) (Reachable.caller hr e) hn).1
    rw [dispatcher_move_caller, worker_move_caller]
    exact hi.same (Op.sameSlots_of_other hpre nofun nofun) rfl (Nat.le_refl _)

end Pool

/-! ## Idle workers -/

/-- The dispatcher is inside a `WorkerThread::send` to `w`. -/
def DispatcherPc.sendsTo (w : WorkerId) : DispatcherPc P → Prop
  | .send _ v _ _ | .fetchSub v _ _ | .wakeWorker v _ _ => v = w
  | _ => False

/-- The channel and the futures of worker `w` are empty, and nothing is being
sent to it. -/
structure Pool.Idle (s : (pool cfg prog).State) (w : WorkerId) : Prop where
  channel : s.mem.workerChannel w = []
  futures : (worker s w).tasks = []
  sends : ¬(dispatcher s).sendsTo w

/-- A step in which a task leaves worker `w` and its slot is not given back: the
`Err` arm, or the cancelled branch of the `Pending` arm. -/
def Pool.Leaks (s : (pool cfg prog).State) (a : (pool cfg prog).Action) (w : WorkerId) : Prop :=
  ∃ q o, s.next a = some (q, o) ∧
    ((∃ t r, o = .replacePanicked t r w) ∨ ∃ t, o = .foundCancelled t w)

/-- Only those two arms leak a slot. -/
theorem Op.leaked_cases (op : Op V P) (m : Shared V P) (w : WorkerId) :
    (op.exec m).leaked w = m.leaked w ∨ (∃ t r, op = .replacePanicked t r w) ∨
      ∃ t, op = .foundCancelled t w := by
  cases hk : op.keepsSlots with
  | true => exact .inl (Op.sameSlots_of_keeps hk).leaked
  | false =>
      cases op <;> simp only [Op.keepsSlots, reduceCtorEq] at hk
      case replacePanicked t r v =>
        by_cases hv : v = w
        · exact .inr (.inl ⟨t, r, hv ▸ rfl⟩)
        · exact .inl (by simp [Op.exec, Ne.symm hv])
      case foundCancelled t v =>
        by_cases hv : v = w
        · exact .inr (.inr ⟨t, hv ▸ rfl⟩)
        · exact .inl (by simp [Op.exec, Ne.symm hv])
      case recvWorker v =>
        simp only [Op.exec]
        split <;> exact .inl rfl
      all_goals exact .inl rfl

theorem WorkerPc.load_eq_zero {q : WorkerPc V P} (h : q.tasks = []) : q.load = 0 := by
  cases q <;> simp_all [WorkerPc.tasks, WorkerPc.load, futs]

theorem DispatcherPc.sent_eq_zero {p : DispatcherPc P} (h : ¬p.sendsTo w) : p.sent w = 0 := by
  cases p <;> simp_all [DispatcherPc.sendsTo, DispatcherPc.sent]

namespace Pool

variable {s : (pool cfg prog).State}

/-- An idle worker has all its slots back exactly when none was leaked. -/
theorem Reachable.free_iff (h : Reachable s) (hi : Idle s w) :
    s.mem.freeWorkers w = cfg.workersPerThread ↔ s.mem.leaked w = 0 := by
  obtain ⟨free, hf, hb, -⟩ := h.slots w
  rw [WorkerPc.load_eq_zero hi.futures, DispatcherPc.sent_eq_zero hi.sends, hi.channel,
    List.length_nil] at hb
  have hlt : cfg.workersPerThread.toNat < 2 ^ 32 := cfg.workersPerThread.toNat_lt
  have hfree : free < UInt32.size := Nat.lt_of_le_of_lt (by omega) hlt
  rw [hf, ← UInt32.toNat_inj, UInt32.toNat_ofNat_of_lt' hfree]
  omega

/-- In every run in which no task leaves a worker by its `Err` arm or by the
cancelled branch of its `Pending` arm, the worker has all its slots back whenever
it is idle, and otherwise it never has. -/
theorem slots_returned :
    (∀ (w : WorkerId) (s : (pool cfg prog).State),
      System.ReachVia (fun s a _ => ¬Leaks s a w) (poolInit cfg prog) s →
        Idle s w → s.mem.freeWorkers w = cfg.workersPerThread) ∧
      ∀ (w : WorkerId) (s : (pool cfg prog).State), Reachable s → Idle s w →
        (s.mem.freeWorkers w = cfg.workersPerThread ↔ s.mem.leaked w = 0) := by
  refine ⟨fun w s hv hi => (Reachable.free_iff hv.reach hi).mpr ?_, fun w s h hi => h.free_iff hi⟩
  refine hv.invariant (I := fun s => s.mem.leaked w = 0) rfl ?_
  intro s s' a _ hz hs hok
  obtain ⟨q, o, hn, rfl⟩ := System.State.step_cases hs
  have hl : (o.exec s.mem).leaked w = s.mem.leaked w :=
    (Op.leaked_cases o s.mem w).resolve_right fun ho => hok ⟨q, o, hn, ho⟩
  exact hl.trans hz

end Pool

set_option maxRecDepth 2000

/-- A task that panics. -/
def panicTask : Program Nat Nat := .chain false 0 fun _ _ => .error (.user 7)

/-- The panicking task was submitted to a pool with one slot, and ran to its
end. -/
def panicRun : (pool Specs.one panicTask).State :=
  (poolInit Specs.one panicTask).after (submits 0 [0] ++ turns 40)

theorem panicRun_reachable : Reachable panicRun := .after _ .init

theorem panicRun_idle : Idle panicRun 0 where
  channel := by decide
  futures := by decide
  sends := by
    have hd : dispatcher panicRun = .top [] := by decide
    simp [hd, DispatcherPc.sendsTo]

/-- A panic costs the only slot of the worker. -/
theorem Pool.slots_not_returned :
    ¬∀ (w : WorkerId) (s : (pool Specs.one panicTask).State), Reachable s → Idle s w →
      s.mem.freeWorkers w = Specs.one.workersPerThread := by
  intro h
  have hf : panicRun.mem.freeWorkers 0 = 0 := by decide
  have := h 0 _ panicRun_reachable panicRun_idle
  rw [hf] at this
  exact absurd this (by decide)

/-- The worker of the chain of two functions has its slot back. -/
theorem Pool.slots_returned_successorRun : successorRun.mem.freeWorkers 0 = 1 := by
  have hi : Idle successorRun 0 := by
    refine ⟨by decide, by decide, ?_⟩
    have hd : dispatcher successorRun = .top [] := by decide
    simp [hd, DispatcherPc.sendsTo]
  exact (slots_returned.2 0 _ successorRun_reachable hi).mpr (by decide)

end MVSync
