import Mathlib.Algebra.BigOperators.Group.Finset.Basic
import Mathlib.Algebra.Order.BigOperators.Group.Finset
import Mathlib.Data.Prod.Lex
import MVSync.Concurrency.Ranking
import MVSync.Pool.Placement
import MVSync.Pool.Slots

/-!
# The pool comes to rest

The dispatcher and the workers loop: each of them goes over its list again whenever its
signal was woken.  Left to themselves they come to rest all the same.  Three numbers
measure what is left to do, and each step lowers one of them and leaves the ones before it
as they are:

* the places that the tasks still have to go through (`Pool.remaining`),
* the wake-ups that nobody has taken yet (`Pool.wakeUps`),
* the way to the end of the turn that each thread is in (`Pool.turn`).

A wake-up comes from a task that moves on, and a new turn from a wake-up.
-/

namespace MVSync

open Concurrency Pool

variable {V P : Type} {cfg : Specs} {prog : Program V P} {m m' : Shared V P} {op : Op V P}
  {x : Task} {w : WorkerId}

/-! ## Turns -/

/-- What is left of a settling site. -/
def SettlePc.turn : SettlePc → Nat
  | .signals ss => ss.length + 2
  | .wakeQueue => 1

theorem settleNext_turn {site : Site} {sp sp' : SettlePc}
    (h : settleNext x site sp = (some sp', op)) : sp'.turn < sp.turn := by
  unfold settleNext at h
  split at h
  all_goals cases h
  all_goals simp [SettlePc.turn]

theorem SettlePc.begin_turn (x : Task) :
    (SettlePc.begin x).turn = x.semaphores.length + 2 := rfl

/-- What is left of a poll. -/
def PollPc.turn : PollPc V P → Nat
  | .start => 8
  | .waitSignal _ => 7
  | .takeState _ => 6
  | .takeBuffer _ => 5
  | .readState _ _ => 4
  | .body _ => 3
  | .writeBuffer _ => 2
  | .writeReady | .replace _ _ _ => 1

theorem pollNext_turn {pends : Bool} {p p' : PollPc V P}
    (h : pollNext prog x pends p m = some (.more p', op)) : p'.turn < p.turn := by
  cases pollNext_step h <;> simp [PollPc.turn]

theorem PollPc.turn_le (p : PollPc V P) : p.turn ≤ 8 := by
  cases p <;> simp [PollPc.turn]

/-- How long the dispatcher has to do with some tasks in one pass, when there are `n`
threads to choose from. -/
def passLength (n : Nat) : List Task → Nat
  | [] => 0
  | x :: xs => x.wait.length + x.semaphores.length + n + 10 + passLength n xs

/-- What is left of a pass of the dispatcher. -/
def DispatcherPc.turn (n : Nat) : DispatcherPc P → Nat
  | .exited | .panicked | .wait _ => 0
  | .top [] => 1
  | .top (x :: xs) => passLength n (x :: xs) + 3
  | .scan todo _ => passLength n todo + 2
  | .wakeWorker _ todo _ => passLength n todo + 3
  | .fetchSub _ todo _ => passLength n todo + 4
  | .send _ _ todo _ => passLength n todo + 5
  | .freeWorkers _ _ todo _ => passLength n todo + 6
  | .select _ _ left todo _ => passLength n todo + left.length + 7
  | .settle _ _ sp todo _ => passLength n todo + sp.turn + 2
  | .replace x _ _ _ todo _ => passLength n todo + x.semaphores.length + 5
  | .isCancelledSelf x todo _ => passLength n todo + x.semaphores.length + n + 8
  | .isCancelled x todo _ | .getPanic x todo _ => passLength n todo + x.semaphores.length + n + 9
  | .isPanicked x todo _ => passLength n todo + x.semaphores.length + n + 10
  | .canExecute x ss todo _ => passLength n todo + ss.length + x.semaphores.length + n + 11

/-- How long a worker has to do with some futures in one pass. -/
def pollLength : List (Fut V) → Nat
  | [] => 0
  | f :: fs => f.task.semaphores.length + 14 + pollLength fs

/-- What is left of a pass of a worker with `inbox` in its channel. -/
def WorkerPc.turn (inbox : List Task) : WorkerPc V P → Nat
  | .exited | .wait _ => 0
  | .top [] => 1
  | .top (f :: fs) => if inbox = [] then pollLength (f :: fs) + 4 else 0
  | .check _ => 2
  | .retain _ todo => pollLength todo + 3
  | .poll x p _ todo => pollLength todo + p.turn + x.semaphores.length + 8
  | .pendingArm x _ _ todo | .errArm x _ _ todo | .readyArm x _ todo =>
      pollLength todo + x.semaphores.length + 7
  | .settle _ _ sp _ todo => pollLength todo + sp.turn + 3

/-! ## What is on its way -/

/-- The tasks in the variables of the dispatcher. -/
def DispatcherPc.held : DispatcherPc P → Nat
  | .top xs | .wait xs => xs.length
  | .scan todo remaining | .fetchSub _ todo remaining | .wakeWorker _ todo remaining =>
      todo.length + remaining.length
  | .canExecute _ _ todo remaining | .isPanicked _ todo remaining | .getPanic _ todo remaining
  | .isCancelled _ todo remaining | .isCancelledSelf _ todo remaining
  | .replace _ _ _ _ todo remaining | .select _ _ _ todo remaining
  | .freeWorkers _ _ todo remaining | .send _ _ todo remaining | .settle _ _ _ todo remaining =>
      todo.length + remaining.length + 1
  | .exited | .panicked => 0

/-- The wake-up of a worker that the dispatcher is about to make. -/
def DispatcherPc.due : DispatcherPc P → Nat
  | .fetchSub _ _ _ | .wakeWorker _ _ _ => 1
  | _ => 0

/-- The tasks in the variables of a worker. -/
def WorkerPc.held (p : WorkerPc V P) : Nat := p.tasks.length

/-- A flag as a number. -/
def Signal.count {W : Type} (g : Signal W) : Nat := g.ready.toNat

/-- The tasks in the channels, with the places they still have to go through. -/
def Shared.backlog (cfg : Specs) (m : Shared V P) : Nat :=
  4 * m.channel.length +
    2 * ∑ w ∈ Finset.range cfg.threadCount.toNat, (m.workerChannel w).length

/-- The flags that are up. -/
def Shared.raised (cfg : Specs) (m : Shared V P) : Nat :=
  m.queueSignal.count + ∑ w ∈ Finset.range cfg.threadCount.toNat, (m.workerSignal w).count

/-- Nothing happens to a channel or to a signal that a thread of the pool sleeps on. -/
structure Calm (m m' : Shared V P) : Prop where
  channel : m'.channel = m.channel
  workerChannel : m'.workerChannel = m.workerChannel
  queueSignal : m'.queueSignal = m.queueSignal
  workerSignal : m'.workerSignal = m.workerSignal

/-- The operations that touch no channel and no such signal. -/
def Op.calm : Op V P → Bool
  | .recv | .send _ | .sendWorker _ _ | .recvWorker _ | .dropDispatcher | .waitQueueSignal
  | .waitWorkerSignal _ | .wakeWorker _ | .wakeQueue _ _ _ | .endSubmit => false
  | _ => true

theorem Op.calm_exec (h : op.calm = true) : Calm m (op.exec m) := by
  cases op <;> simp only [Op.calm, Bool.false_eq_true] at h <;> simp only [Op.exec]
  case waitSignal t k => cases k <;> exact ⟨rfl, rfl, rfl, rfl⟩
  case takeResult t k r => cases k <;> exact ⟨rfl, rfl, rfl, rfl⟩
  case takeBuffer t k v => cases k <;> exact ⟨rfl, rfl, rfl, rfl⟩
  all_goals exact ⟨rfl, rfl, rfl, rfl⟩

theorem Op.calm_of_poll {pends : Bool} {p : PollPc V P} {r : PollResult V P}
    (h : pollNext prog x pends p m = some (r, op)) : op.calm = true := by
  cases pollNext_step h <;> rfl

/-- A settling site settles the task at hand with its last step. -/
theorem settleNext_calm {site : Site} {sp : SettlePc} {sp' : Option SettlePc}
    (h : settleNext x site sp = (sp', op)) :
    op.calm = true ∨ sp' = none ∧ ∃ home, op = .wakeQueue x.id home site := by
  unfold settleNext at h
  split at h
  all_goals cases h
  · exact .inl rfl
  · exact .inl rfl
  · exact .inr ⟨rfl, _, rfl⟩

theorem Calm.backlog (h : Calm m m') : m'.backlog cfg = m.backlog cfg := by
  simp only [Shared.backlog, h.channel, h.workerChannel]

theorem Calm.raised (h : Calm m m') : m'.raised cfg = m.raised cfg := by
  simp only [Shared.raised, h.queueSignal, h.workerSignal]

/-- A sum in which one summand changes. -/
theorem sum_update {n : Nat} (f g : Nat → Nat) (hw : ∀ v, v ≠ w → g v = f v) :
    ∑ v ∈ Finset.range n, g v + (if w < n then f w else 0) =
      ∑ v ∈ Finset.range n, f v + (if w < n then g w else 0) := by
  by_cases hn : w < n
  · have hmem : w ∈ Finset.range n := Finset.mem_range.mpr hn
    rw [← Finset.add_sum_erase _ g hmem, ← Finset.add_sum_erase _ f hmem]
    have hrest : ∑ v ∈ (Finset.range n).erase w, g v = ∑ v ∈ (Finset.range n).erase w, f v :=
      Finset.sum_congr rfl fun v hv => hw v (Finset.ne_of_mem_erase hv)
    simp only [hn, if_true]
    omega
  · have hall : ∑ v ∈ Finset.range n, g v = ∑ v ∈ Finset.range n, f v :=
      Finset.sum_congr rfl fun v hv => hw v fun he => hn (he ▸ Finset.mem_range.mp hv)
    simp [hn, hall]

/-! ## What the operations do to it -/

theorem Op.backlog_recv (h : m.channel ≠ []) :
    (Op.recv.exec m).backlog cfg + 4 = m.backlog cfg := by
  obtain ⟨x, c, hc⟩ := List.exists_cons_of_ne_nil h
  simp only [Shared.backlog, Op.exec, hc, List.length_cons, Shared.modify_workerChannel]
  omega

theorem Op.backlog_sendWorker :
    ((Op.sendWorker w x).exec m).backlog cfg ≤ m.backlog cfg + 2 := by
  have hsum := sum_update (w := w) (n := cfg.threadCount.toNat)
    (fun v => (m.workerChannel v).length)
    (fun v => (((Op.sendWorker w x).exec m).workerChannel v).length)
    (fun v hv => by simp [Op.exec, hv])
  simp only [Shared.backlog, Op.exec, Shared.modify_channel, Function.update_self,
    List.length_append, List.length_singleton] at hsum ⊢
  split at hsum <;> omega

theorem Op.backlog_recvWorker (hw : w < cfg.threadCount.toNat) (h : m.workerChannel w ≠ []) :
    ((Op.recvWorker w).exec m).backlog cfg + 2 = m.backlog cfg := by
  obtain ⟨x, c, hc⟩ := List.exists_cons_of_ne_nil h
  have hsum := sum_update (w := w) (n := cfg.threadCount.toNat)
    (fun v => (m.workerChannel v).length)
    (fun v => (((Op.recvWorker w).exec m).workerChannel v).length)
    (fun v hv => by simp [Op.exec, hc, hv])
  simp only [Shared.backlog, Op.exec, hc, Shared.modify_channel, Function.update_self, hw, if_true,
    List.length_cons] at hsum ⊢
  omega

theorem Op.backlog_wakeQueue {t : TaskId} {home : Bool} {site : Site} :
    ((Op.wakeQueue t home site).exec m).backlog cfg = m.backlog cfg := rfl

theorem Op.backlog_dropDispatcher :
    ((Op.dropDispatcher : Op V P).exec m).backlog cfg ≤ m.backlog cfg := by
  simp [Shared.backlog, Op.exec, Shared.drop]

theorem Op.raised_waitQueueSignal (h : m.queueSignal.ready = true) :
    ((Op.waitQueueSignal : Op V P).exec m).raised cfg + 1 = m.raised cfg := by
  simp only [Shared.raised, Op.exec, Signal.count, h, Bool.toNat_false, Bool.toNat_true]
  omega

theorem Op.raised_waitWorkerSignal (hw : w < cfg.threadCount.toNat)
    (h : (m.workerSignal w).ready = true) :
    ((Op.waitWorkerSignal w : Op V P).exec m).raised cfg + 1 = m.raised cfg := by
  have hsum := sum_update (w := w) (n := cfg.threadCount.toNat)
    (fun v => (m.workerSignal v).count)
    (fun v => (((Op.waitWorkerSignal w : Op V P).exec m).workerSignal v).count)
    (fun v hv => by simp [Op.exec, hv])
  simp only [Shared.raised, Op.exec, Function.update_self, Signal.count, h, Bool.toNat_false,
    Bool.toNat_true, hw, if_true] at hsum ⊢
  omega

theorem Op.raised_wakeWorker :
    ((Op.wakeWorker w : Op V P).exec m).raised cfg ≤ m.raised cfg + 1 := by
  have hsum := sum_update (w := w) (n := cfg.threadCount.toNat)
    (fun v => (m.workerSignal v).count)
    (fun v => (((Op.wakeWorker w : Op V P).exec m).workerSignal v).count)
    (fun v hv => by simp [Op.exec, hv])
  simp only [Shared.raised, Op.exec, Function.update_self, Signal.count, Signal.wake_ready,
    Bool.toNat_true] at hsum ⊢
  split at hsum <;> omega

/-! ## One step of a thread -/

theorem Specs.length_candidates_le (cfg : Specs) (x : Task) :
    (cfg.candidates x).length ≤ cfg.threadCount.toNat := by
  refine Nat.le_trans (List.length_filter_le _ _) ?_
  simp [Specs.threads]

/-- A step of the dispatcher. -/
theorem dispatcherNext_rank {p p' : DispatcherPc P}
    (h : dispatcherNext cfg p m = some (p', op)) :
    (op.exec m).backlog cfg + 3 * p'.held < m.backlog cfg + 3 * p.held ∨
      (op.exec m).workerChannel = m.workerChannel ∧
        (op.exec m).backlog cfg + 3 * p'.held = m.backlog cfg + 3 * p.held ∧
        ((op.exec m).raised cfg + p'.due < m.raised cfg + p.due ∨
          (op.exec m).raised cfg + p'.due ≤ m.raised cfg + p.due ∧
            p'.turn cfg.threadCount.toNat < p.turn cfg.threadCount.toNat) := by
  have calm : op.calm = true → p'.held = p.held → p'.due = p.due →
      p'.turn cfg.threadCount.toNat < p.turn cfg.threadCount.toNat →
      (op.exec m).workerChannel = m.workerChannel ∧
        (op.exec m).backlog cfg + 3 * p'.held = m.backlog cfg + 3 * p.held ∧
        ((op.exec m).raised cfg + p'.due < m.raised cfg + p.due ∨
          (op.exec m).raised cfg + p'.due ≤ m.raised cfg + p.due ∧
            p'.turn cfg.threadCount.toNat < p.turn cfg.threadCount.toNat) := by
    intro ho hheld hdue hturn
    have hcalm := Op.calm_exec (m := m) ho
    exact ⟨hcalm.workerChannel, by rw [hcalm.backlog, hheld],
      .inr ⟨by rw [hcalm.raised, hdue], hturn⟩⟩
  cases dispatcherNext_step h with
  | recv hc | tryRecv hc =>
      have hlog : (Op.recv.exec m).backlog cfg + 4 = m.backlog cfg :=
        Op.backlog_recv (by simp [hc])
      refine .inl ?_
      simp only [DispatcherPc.held, List.length_append, List.length_cons, List.length_nil]
      omega
  | @send x w =>
      have hlog : ((Op.sendWorker w x).exec m).backlog cfg ≤ m.backlog cfg + 2 :=
        Op.backlog_sendWorker
      refine .inl ?_
      simp only [DispatcherPc.held]
      omega
  | panic =>
      have hlog : (Op.dropDispatcher.exec m).backlog cfg ≤ m.backlog cfg :=
        Op.backlog_dropDispatcher
      refine .inl ?_
      simp only [DispatcherPc.held]
      omega
  | wake hr =>
      have hraised : (Op.waitQueueSignal.exec m).raised cfg + 1 = m.raised cfg :=
        Op.raised_waitQueueSignal hr
      refine .inr ⟨rfl, rfl, .inl ?_⟩
      simp only [DispatcherPc.due]
      omega
  | @wakeWorker w =>
      have hraised : ((Op.wakeWorker w).exec m).raised cfg ≤ m.raised cfg + 1 :=
        Op.raised_wakeWorker
      refine .inr ⟨rfl, rfl, .inr ⟨?_, Nat.lt_succ_self _⟩⟩
      simp only [DispatcherPc.due]
      omega
  | settle hs =>
      have hturn := settleNext_turn hs
      refine .inr (calm ((settleNext_calm hs).resolve_right (by simp)) rfl rfl ?_)
      simp only [DispatcherPc.turn]
      omega
  | settled hs =>
      refine .inl ?_
      have hback : (op.exec m).backlog cfg = m.backlog cfg := by
        rcases settleNext_calm hs with ho | ⟨-, home, rfl⟩
        · exact (Op.calm_exec ho).backlog
        · exact Op.backlog_wakeQueue
      simp only [DispatcherPc.held]
      omega
  | noPreference =>
      rename_i x todo remaining hc hl
      have hlen := cfg.length_candidates_le x
      refine .inr (calm rfl rfl rfl ?_)
      simp only [DispatcherPc.turn]
      omega
  | received | sleep =>
      refine .inr (calm rfl (by simp [DispatcherPc.held]) rfl ?_)
      simp only [DispatcherPc.turn, passLength]
      omega
  | next | unsignalled | pending | noLabel | noThread | busy =>
      refine .inr (calm rfl ?_ rfl ?_)
      · simp only [DispatcherPc.held, List.length_append, List.length_cons, List.length_nil]
        omega
      · simp only [DispatcherPc.turn, passLength]
        omega
  | _ =>
      refine .inr (calm rfl rfl rfl ?_)
      simp only [DispatcherPc.turn, SettlePc.begin_turn, passLength, List.length_cons,
        List.length_nil]
      omega

/-- A step of a worker. -/
theorem workerNext_rank {pends : Bool} {p p' : WorkerPc V P} (hw : w < cfg.threadCount.toNat)
    (h : workerNext prog w pends p m = some (p', op)) :
    (op.exec m).backlog cfg + p'.held < m.backlog cfg + p.held ∨
      (op.exec m).workerChannel = m.workerChannel ∧
        (op.exec m).backlog cfg = m.backlog cfg ∧ p'.held = p.held ∧
        ((op.exec m).raised cfg < m.raised cfg ∨
          (op.exec m).raised cfg ≤ m.raised cfg ∧
            p'.turn (m.workerChannel w) < p.turn (m.workerChannel w)) := by
  have calm : op.calm = true → p'.held = p.held →
      p'.turn (m.workerChannel w) < p.turn (m.workerChannel w) →
      (op.exec m).workerChannel = m.workerChannel ∧
        (op.exec m).backlog cfg = m.backlog cfg ∧ p'.held = p.held ∧
        ((op.exec m).raised cfg < m.raised cfg ∨
          (op.exec m).raised cfg ≤ m.raised cfg ∧
            p'.turn (m.workerChannel w) < p.turn (m.workerChannel w)) := by
    intro ho hheld hturn
    have hcalm := Op.calm_exec (m := m) ho
    exact ⟨hcalm.workerChannel, hcalm.backlog, hheld, .inr ⟨Nat.le_of_eq hcalm.raised, hturn⟩⟩
  cases workerNext_step h with
  | recv hc | tryRecv hc =>
      have hlog : ((Op.recvWorker w).exec m).backlog cfg + 2 = m.backlog cfg :=
        Op.backlog_recvWorker hw (by simp [hc])
      refine .inl ?_
      simp only [WorkerPc.held, WorkerPc.tasks, futs, List.length_append, List.length_cons,
        List.length_nil, List.length_map]
      omega
  | wake hr =>
      have hraised : ((Op.waitWorkerSignal w).exec m).raised cfg + 1 = m.raised cfg :=
        Op.raised_waitWorkerSignal hw hr
      exact .inr ⟨rfl, rfl, rfl, .inl (by omega)⟩
  | more hp =>
      have hturn := pollNext_turn hp
      refine .inr (calm (Op.calm_of_poll hp) rfl ?_)
      simp only [WorkerPc.turn]
      omega
  | pending hp | err hp | ready hp =>
      refine .inr (calm (Op.calm_of_poll hp) rfl ?_)
      simp only [WorkerPc.turn]
      omega
  | settle hs =>
      have hturn := settleNext_turn hs
      refine .inr (calm ((settleNext_calm hs).resolve_right (by simp)) rfl ?_)
      simp only [WorkerPc.turn]
      omega
  | settled hs =>
      refine .inl ?_
      have hback : (op.exec m).backlog cfg = m.backlog cfg := by
        rcases settleNext_calm hs with ho | ⟨-, home, rfl⟩
        · exact (Op.calm_exec ho).backlog
        · exact Op.backlog_wakeQueue
      simp only [WorkerPc.held, WorkerPc.tasks, List.length_cons]
      omega
  | received hc =>
      refine .inr (calm rfl rfl ?_)
      simp only [WorkerPc.turn, hc, if_true]
      omega
  | again hc =>
      refine .inr (calm rfl rfl ?_)
      simp [WorkerPc.turn, hc]
  | @next f kept todo =>
      have hentry := (f.entry : PollPc V P).turn_le
      refine .inr (calm rfl ?_ ?_)
      · simp only [WorkerPc.held, WorkerPc.tasks, futs, List.length_cons, List.length_map,
          List.length_append]
        omega
      · simp only [WorkerPc.turn, pollLength]
        omega
  | kept =>
      refine .inr (calm rfl ?_ ?_)
      · simp only [WorkerPc.held, WorkerPc.tasks, futs, List.length_cons, List.length_map,
          List.length_append, List.length_nil]
        omega
      · simp only [WorkerPc.turn]
        omega
  | retained =>
      refine .inr (calm rfl ?_ ?_)
      · simp only [WorkerPc.held, WorkerPc.tasks, List.append_nil]
      · simp only [WorkerPc.turn, pollLength]
        omega
  | _ =>
      refine .inr (calm rfl rfl ?_)
      simp only [WorkerPc.turn, SettlePc.begin_turn]
      omega

/-! ## The rank of a state -/

/-- The dispatcher and the workers. -/
def Tid.Serves (cfg : Specs) : Tid → Prop
  | .dispatcher => True
  | .worker w => w ∈ cfg.threads
  | .caller _ => False

theorem Specs.mem_threads {cfg : Specs} : w ∈ cfg.threads ↔ w < cfg.threadCount.toNat := by
  simp [Specs.threads]

namespace Pool

variable {s s' : (pool cfg prog).State}

/-- The places that the tasks of the pool still have to go through: from the submission
channel to the dispatcher, a channel, a worker, and out. -/
def remaining (s : (pool cfg prog).State) : Nat :=
  s.mem.backlog cfg + 3 * (dispatcher s).held +
    ∑ w ∈ Finset.range cfg.threadCount.toNat, (worker s w).held

/-- The wake-ups that were made and not taken, or are about to be made. -/
def wakeUps (s : (pool cfg prog).State) : Nat := s.mem.raised cfg + (dispatcher s).due

/-- What is left of the turns of all threads. -/
def turn (s : (pool cfg prog).State) : Nat :=
  (dispatcher s).turn cfg.threadCount.toNat +
    ∑ w ∈ Finset.range cfg.threadCount.toNat, (worker s w).turn (s.mem.workerChannel w)

/-- What the pool has left to do. -/
def rank (s : (pool cfg prog).State) : ℕ ×ₗ ℕ ×ₗ ℕ :=
  toLex (remaining s, toLex (wakeUps s, turn s))

theorem rank_lt (h : remaining s' < remaining s ∨ remaining s' = remaining s ∧
    (wakeUps s' < wakeUps s ∨ wakeUps s' ≤ wakeUps s ∧ turn s' < turn s)) : rank s' < rank s := by
  simp only [rank, Prod.Lex.toLex_lt_toLex]
  omega

theorem rank_dispatcher {q : DispatcherPc P} {o : Op V P}
    (hn : dispatcherNext cfg (dispatcher s) s.mem = some (q, o)) :
    rank (s.move .dispatcher q o) < rank s := by
  have hmem : (s.move .dispatcher q o).mem = o.exec s.mem := rfl
  refine rank_lt ?_
  simp only [remaining, wakeUps, turn, dispatcher_move, worker_move_dispatcher, hmem]
  rcases dispatcherNext_rank hn with hlt | ⟨hchan, heq, hrest⟩
  · exact .inl (by omega)
  · rw [hchan]
    exact .inr ⟨by omega, by omega⟩

theorem rank_worker {w : WorkerId} {pends : Bool} {q : WorkerPc V P} {o : Op V P}
    (hw : w ∈ cfg.threads) (hn : workerNext prog w pends (worker s w) s.mem = some (q, o)) :
    rank (s.move (.worker w) q o) < rank s := by
  have hmem : (s.move (.worker w) q o).mem = o.exec s.mem := rfl
  have hw := Specs.mem_threads.mp hw
  have hheld := sum_update (w := w) (n := cfg.threadCount.toNat) (fun v => (worker s v).held)
    (fun v => (worker (s.move (.worker w) q o) v).held)
    (fun v hv => by rw [worker_move_of_ne s o hv])
  simp only [worker_move, hw, if_true] at hheld
  refine rank_lt ?_
  simp only [remaining, wakeUps, turn, dispatcher_move_worker, hmem]
  rcases workerNext_rank hw hn with hlt | ⟨hchan, hback, hsame, hrest⟩
  · exact .inl (by omega)
  · have hturn := sum_update (w := w) (n := cfg.threadCount.toNat)
      (fun v => (worker s v).turn (s.mem.workerChannel v))
      (fun v => (worker (s.move (.worker w) q o) v).turn (s.mem.workerChannel v))
      (fun v hv => by rw [worker_move_of_ne s o hv])
    simp only [worker_move, hw, if_true] at hturn
    rw [hchan]
    exact .inr ⟨by omega, by omega⟩

/-- An action of the dispatcher or of a worker. -/
def Serves (a : (pool cfg prog).Action) : Prop := a.tid.Serves cfg

/-- Every step of the dispatcher or a worker lowers the rank. -/
theorem rank_moves (h : s.Moves Serves s') : rank s' < rank s := by
  obtain ⟨a, ha, hs⟩ := h
  rcases step_cases hs with ⟨q, o, rfl, hn, rfl⟩ | ⟨w, pends, q, o, rfl, hn, rfl⟩ |
    ⟨e, c, q, o, rfl, -, -⟩
  · exact rank_dispatcher hn
  · exact rank_worker ha hn
  · exact ha.elim

/-- The ranking of some actions of the pool, for a property that they do not leave. -/
def ranking {T : (pool cfg prog).Action → Prop} (hT : ∀ a, T a → Serves a)
    {I : (pool cfg prog).State → Prop}
    (kept : ∀ {s s' : (pool cfg prog).State}, I s → s.Moves T s' → I s') :
    System.Ranking (pool cfg prog) T I (ℕ ×ₗ ℕ ×ₗ ℕ) where
  rank := rank
  kept := kept
  lt _ h := rank_moves (h.imp fun a ha => ⟨hT a ha.1, ha.2⟩)

/-- Left to themselves, the dispatcher and the workers do not loop for ever, whatever the
futures do that they poll. -/
theorem comes_to_rest (f : Nat → (pool cfg prog).State) :
    ¬∀ n, (f n).Moves Serves (f (n + 1)) :=
  (ranking (I := fun _ => True) (fun _ => id) fun _ _ => trivial).not_forever trivial

end Pool

end MVSync
