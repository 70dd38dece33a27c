import MVSync.Task

/-!
# The memory of the pool

Everything that the threads of one `MVSync` share, and the atomic operations on
it.  One operation is one lock acquisition, one atomic instruction, or one
channel operation of the source.

What belongs to one task is a `Cell`.  Its fields come in three groups.

*Memory.*  The state, the result buffer and the completion signal.

*Moves.*  Rust moves a task from the user through the channels to the thread
that runs it, and a handle into the call that consumes it.  `owner` and `handle`
say where the value is.  They stand for the type system: the only steps that
read them are the calls that would not compile without the value.

*History.*  What has happened to the task so far.  No step reads it.

A waker that a completion signal calls belongs to an executor outside the pool,
which may poll again whenever it likes.  So an executor is a caller that polls
at any time, and calling its waker needs no step of its own.
-/

namespace MVSync

/-! ## Threads, owners and history marks -/

/-- The threads.  A caller is any thread of the user. -/
inductive Tid where
  | dispatcher
  | worker (w : WorkerId)
  | caller (e : CallerId)
deriving DecidableEq, Repr

/-- Where the value of a task is. -/
inductive Owner where
  /-- In the user's hands. -/
  | user
  /-- In a local variable of a thread. -/
  | thread (i : Tid)
  /-- In the submission channel. -/
  | channel
  /-- In the channel of a worker. -/
  | workerChannel (w : WorkerId)
  /-- Consumed or dropped. -/
  | gone
deriving DecidableEq, Repr

/-- The places of the source that settle a task: signal its semaphores and wake
its two signals. -/
inductive Site where
  | dispatcherPanicked
  | dispatcherCancelled
  | workerPending
  | workerErr
  | workerReady
  | inlinePanicked
  | inlineCancelled
  | inlineReady
deriving DecidableEq, Repr

/-- How a task finished.  `silent` is the branch of a continuation that writes
no state. -/
inductive Finish where
  | returned
  | panicked
  | cancelled
  | silent
deriving DecidableEq, Repr

/-- Whose `Signal::wait` on a completion signal returned. -/
inductive Taker where
  /-- `predecessor.wait()` in the future of a continuation. -/
  | continuation (t : TaskId)
  /-- `TaskHandle::wait` of the user. -/
  | handle
  /-- `TaskController::wait` or `Fence::wait`. -/
  | observer
deriving DecidableEq, Repr

/-- How far the owner of a task has come with it. -/
inductive Stage (V P : Type) where
  /-- Not looked at, or not found executable yet. -/
  | fresh
  /-- Found executable, its future not polled or waiting for its predecessor. -/
  | passed
  /-- A continuation that took the wake-up of its predecessor. -/
  | tookFlag
  /-- A continuation that took the result of its predecessor. -/
  | tookResult (r : TaskResult V P)
  /-- The body was invoked. -/
  | running (v : Option V)
  /-- The body returned. -/
  | returned (r : V)
  /-- The value is in the buffer. -/
  | written
  /-- The future panicked. -/
  | panicking
  /-- The outcome is decided and written. -/
  | finished
  /-- The completion signal was woken. -/
  | woken (site : Site)
  /-- Both signals were woken. -/
  | settled (site : Site)
deriving DecidableEq, Repr

/-! ## The shared memory -/

/-- What belongs to one task. -/
structure Cell (V P : Type) where
  -- memory
  /-- `self_state`. -/
  state : TaskState P
  /-- The result buffer. -/
  buffer : Option V
  /-- The completion signal. -/
  signal : Signal CallerId
  -- moves
  owner : Owner
  /-- The caller that moved the handle into a wait. -/
  handle : Option CallerId
  -- history
  stage : Stage V P
  /-- What the body was invoked with, each time. -/
  invoked : List (Option V)
  finish : Option Finish
  /-- The sites that woke the completion signal. -/
  wakes : List Site
  /-- The sites that woke the second signal. -/
  queueWakes : List Site
  /-- The waits on the completion signal that returned. -/
  takes : List Taker
  /-- What the wait on the handle got. -/
  result : Option (TaskResult V P)
  /-- Whether `cancel` was called. -/
  cancelled : Bool

/-- What the threads share. -/
structure Shared (V P : Type) where
  cell : TaskId → Cell V P
  sem : SemId → Bool
  queueSignal : Signal CallerId
  /-- The submission channel. -/
  channel : List Task
  /-- A reference to the queue is alive. -/
  queueAlive : Bool
  /-- The callers inside a submit call.  Each holds a reference to the queue. -/
  submits : Nat
  /-- The dispatcher holds the receiver and the worker threads. -/
  dispatcherAlive : Bool
  workerChannel : WorkerId → List Task
  workerSignal : WorkerId → Signal CallerId
  freeWorkers : WorkerId → UInt32
  /-- The signal of the `await_sync` that a caller is in. -/
  callerSignal : CallerId → Signal CallerId
  /-- History: the tasks that left a worker by its `Err` or `Pending` arm. -/
  leaked : WorkerId → Nat

/-- A new task. -/
def Cell.init {V P : Type} : Cell V P where
  state := .pending
  buffer := none
  signal := .new
  owner := .user
  handle := none
  stage := .fresh
  invoked := []
  finish := none
  wakes := []
  queueWakes := []
  takes := []
  result := none
  cancelled := false

namespace Shared

variable {V P : Type}

/-- The memory when `MVSync::labelled` returns. -/
def init (cfg : Specs) : Shared V P where
  cell _ := .init
  sem _ := false
  queueSignal := .new
  channel := []
  queueAlive := true
  submits := 0
  dispatcherAlive := true
  workerChannel _ := []
  workerSignal _ := .new
  freeWorkers _ := cfg.workersPerThread
  callerSignal _ := .new
  leaked _ := 0

/-- The value of the `state` cell of a task: the state of its predecessor, or
`Ready`. -/
def predState (m : Shared V P) (x : Task) : TaskState P :=
  match x.inner.predecessor with
  | none => .ready
  | some p => (m.cell p).state

/-- `Task::can_execute`, on one snapshot of the memory. -/
def canExecute (m : Shared V P) (x : Task) : Bool :=
  x.wait.all m.sem && m.predState x != .pending

/-- `Task::is_panicked`. -/
def isPanicked (m : Shared V P) (x : Task) : Bool := (m.predState x).isPanicked

/-- `Task::is_cancelled`, on one snapshot of the memory. -/
def isCancelled (m : Shared V P) (x : Task) : Bool :=
  m.predState x == .cancelled || (m.cell x.id).state == .cancelled

/-- `TaskController::is_done`. -/
def isDone (m : Shared V P) (t : TaskId) : Bool := (m.cell t).signal.ready

/-- `Fence::ready`.  It panics on a fence that is not bound. -/
def fenceReady (prog : Program V P) (m : Shared V P) (f : FenceId) : Option Bool :=
  (prog.fence f).map fun t => (m.cell t).signal.ready

open Function (update)

/-- Change what belongs to a task. -/
def modify (m : Shared V P) (t : TaskId) (f : Cell V P → Cell V P) : Shared V P :=
  { m with cell := update m.cell t (f (m.cell t)) }

@[simp] theorem modify_cell_self (m : Shared V P) (t : TaskId) (f : Cell V P → Cell V P) :
    (m.modify t f).cell t = f (m.cell t) := by
  simp [modify]

theorem modify_cell_of_ne (m : Shared V P) {t u : TaskId} (f : Cell V P → Cell V P)
    (h : u ≠ t) : (m.modify t f).cell u = m.cell u := by
  simp [modify, h]

@[simp] theorem modify_sem (m : Shared V P) (t : TaskId) (f : Cell V P → Cell V P) :
    (m.modify t f).sem = m.sem := rfl

@[simp] theorem modify_channel (m : Shared V P) (t : TaskId) (f : Cell V P → Cell V P) :
    (m.modify t f).channel = m.channel := rfl

@[simp] theorem modify_leaked (m : Shared V P) (t : TaskId) (f : Cell V P → Cell V P) :
    (m.modify t f).leaked = m.leaked := rfl

@[simp] theorem modify_freeWorkers (m : Shared V P) (t : TaskId) (f : Cell V P → Cell V P) :
    (m.modify t f).freeWorkers = m.freeWorkers := rfl

@[simp] theorem modify_workerChannel (m : Shared V P) (t : TaskId) (f : Cell V P → Cell V P) :
    (m.modify t f).workerChannel = m.workerChannel := rfl

/-- Move tasks to a new owner. -/
def move (m : Shared V P) (ts : List TaskId) (o : Owner) : Shared V P :=
  { m with cell := fun t => if t ∈ ts then { m.cell t with owner := o } else m.cell t }

/-- Drop everything that an owner holds. -/
def drop (m : Shared V P) (o : Owner) : Shared V P :=
  { m with cell := fun t =>
      if (m.cell t).owner = o then { m.cell t with owner := .gone } else m.cell t }

end Shared

/-! ## Operations -/

/-- The atomic operations. -/
inductive Op (V P : Type) where
  /-- A step that changes no shared value: a read, or a local one. -/
  | tau
  -- the futures of the tasks
  /-- The body of `t` is invoked with `v`. -/
  | invoke (t : TaskId) (v : Option V)
  /-- The body of `t` returned. -/
  | bodyReturns (t : TaskId) (r : V)
  /-- The future of `t` panicked. -/
  | futurePanics (t : TaskId)
  /-- `buffer.write().unwrap().replace(t)`. -/
  | writeBuffer (t : TaskId) (r : V)
  /-- `state.write().unwrap().replace(TaskState::Ready)`. -/
  | writeReady (t : TaskId)
  /-- `state.write().unwrap().replace(..)` with `Panicked` or `Cancelled`. -/
  | replace (t : TaskId) (st : TaskState P) (f : Finish)
  /-- The future of `t` ends without writing a state. -/
  | silent (t : TaskId)
  -- waiting for a task
  /-- `Signal::wait` on the completion signal of `t` returns. -/
  | waitSignal (t : TaskId) (k : Taker)
  /-- `TaskHandle::wait` takes a state of `t` that is not `Ready`. -/
  | takeResult (t : TaskId) (k : Taker) (r : TaskResult V P)
  /-- `TaskHandle::wait` takes the buffer of `t`. -/
  | takeBuffer (t : TaskId) (k : Taker) (v : V)
  /-- A `SignalFuture` on the completion signal of `t` is polled. -/
  | pollSignal (t : TaskId) (e : CallerId) (started : Bool)
  /-- A caller moves the handle of `t` into `wait` or `wait_async`. -/
  | moveHandle (t : TaskId) (e : CallerId)
  /-- `TaskController::cancel` or `TaskHandle::cancel`. -/
  | cancel (t : TaskId)
  -- settling
  /-- `Semaphore::signal`, for a task bound to signal it. -/
  | signalSem (t : TaskId) (s : SemId)
  /-- The completion signal of `t` is woken. -/
  | wakeSignal (t : TaskId) (site : Site)
  /-- The second signal of `t` is woken. -/
  | wakeQueue (t : TaskId) (home : Bool) (site : Site)
  -- `Queue::run`
  | recv
  | sendWorker (w : WorkerId) (x : Task)
  | fetchSub (w : WorkerId)
  | waitQueueSignal
  /-- The loop breaks: the receiver and the worker threads are dropped. -/
  | exitDispatcher
  /-- The dispatcher panics: its tasks are dropped as well. -/
  | dropDispatcher
  -- `WorkerThread::run`
  | recvWorker (w : WorkerId)
  | fetchAdd (w : WorkerId)
  /-- The `Err` arm writes the state. -/
  | replacePanicked (t : TaskId) (q : Payload P) (w : WorkerId)
  /-- The `Pending` arm reads `Cancelled`. -/
  | foundCancelled (t : TaskId) (w : WorkerId)
  | waitWorkerSignal (w : WorkerId)
  /-- A waker of a worker is called, or `WorkerThread::send` wakes it. -/
  | wakeWorker (w : WorkerId)
  -- `Queue::submit` and its variants, and `run`
  | beginSubmit (e : CallerId) (ts : List TaskId)
  | send (x : Task)
  | endSubmit
  /-- `send(..).expect(..)` panics. -/
  | failSubmit (e : CallerId)
  | dropQueue
  | beginRun (e : CallerId) (ts : List TaskId)
  /-- An inline `can_execute` returned `true`. -/
  | pass (t : TaskId)
  /-- A task that was not run is dropped. -/
  | dropTask (t : TaskId)
  /-- The caller unwinds and drops its tasks. -/
  | dropCaller (e : CallerId)
  | newCallerSignal (e : CallerId)
  | waitCallerSignal (e : CallerId)
  | wakeCaller (e : CallerId)

open Function (update)

variable {V P : Type}

/-- A continuation that takes the wake-up or the result of its predecessor moves
on to the next stage. -/
def Taker.advance (k : Taker) (st : Stage V P) (m : Shared V P) : Shared V P :=
  match k with
  | .continuation c => m.modify c fun x => { x with stage := st }
  | _ => m

/-- What an operation does. -/
def Op.exec : Op V P → Shared V P → Shared V P
  | .tau, m => m
  | .invoke t v, m =>
      m.modify t fun c => { c with invoked := c.invoked ++ [v], stage := .running v }
  | .bodyReturns t r, m =>
      m.modify t fun c => { c with finish := some .returned, stage := .returned r }
  | .futurePanics t, m =>
      m.modify t fun c => { c with finish := some .panicked, stage := .panicking }
  | .writeBuffer t r, m =>
      m.modify t fun c => { c with buffer := some r, stage := .written }
  | .writeReady t, m =>
      m.modify t fun c => { c with state := .ready, stage := .finished }
  | .replace t st f, m =>
      m.modify t fun c => { c with state := st, finish := some f, stage := .finished }
  | .silent t, m =>
      m.modify t fun c => { c with finish := some .silent, stage := .finished }
  | .waitSignal t k, m =>
      k.advance .tookFlag <| m.modify t fun c =>
        { c with signal := { c.signal with ready := false }, takes := c.takes ++ [k] }
  | .takeResult t k r, m =>
      k.advance (.tookResult r) <| m.modify t fun c => { c with result := some r }
  | .takeBuffer t k v, m =>
      k.advance (.tookResult (.returned v)) <| m.modify t fun c =>
        { c with buffer := none, result := some (.returned v) }
  | .pollSignal t e started, m =>
      m.modify t fun c => { c with signal := (c.signal.poll started e).2.1 }
  | .moveHandle t e, m => m.modify t fun c => { c with handle := some e }
  | .cancel t, m => m.modify t fun c => { c with state := .cancelled, cancelled := true }
  | .signalSem _ s, m => { m with sem := update m.sem s true }
  | .wakeSignal t site, m =>
      m.modify t fun c =>
        { c with signal := c.signal.wake.1, wakes := c.wakes ++ [site], stage := .woken site }
  | .wakeQueue t home site, m =>
      { m.modify t fun c =>
          { c with queueWakes := c.queueWakes ++ [site], owner := .gone, stage := .settled site }
        with queueSignal := if home then m.queueSignal.wake.1 else m.queueSignal }
  | .recv, m =>
      match m.channel with
      | [] => m
      | x :: c =>
          { m.modify x.id fun c => { c with owner := .thread .dispatcher } with channel := c }
  | .sendWorker w x, m =>
      { m.modify x.id fun c => { c with owner := .workerChannel w, stage := .passed }
        with workerChannel := update m.workerChannel w (m.workerChannel w ++ [x]) }
  | .fetchSub w, m => { m with freeWorkers := update m.freeWorkers w (m.freeWorkers w - 1) }
  | .waitQueueSignal, m => { m with queueSignal := { m.queueSignal with ready := false } }
  | .exitDispatcher, m => { m with dispatcherAlive := false }
  | .dropDispatcher, m =>
      { (m.drop (.thread .dispatcher)).drop .channel
        with dispatcherAlive := false, channel := [] }
  | .recvWorker w, m =>
      match m.workerChannel w with
      | [] => m
      | x :: c =>
          { m.modify x.id fun c => { c with owner := .thread (.worker w) }
            with workerChannel := update m.workerChannel w c }
  | .fetchAdd w, m => { m with freeWorkers := update m.freeWorkers w (m.freeWorkers w + 1) }
  | .replacePanicked t q w, m =>
      { m.modify t fun c => { c with state := .panicked q, stage := .finished }
        with leaked := update m.leaked w (m.leaked w + 1) }
  | .foundCancelled t w, m =>
      { m.modify t fun c => { c with finish := some .cancelled, stage := .finished }
        with leaked := update m.leaked w (m.leaked w + 1) }
  | .waitWorkerSignal w, m =>
      { m with workerSignal := update m.workerSignal w { m.workerSignal w with ready := false } }
  | .wakeWorker w, m =>
      { m with workerSignal := update m.workerSignal w (m.workerSignal w).wake.1 }
  | .beginSubmit e ts, m =>
      { m.move ts (.thread (.caller e)) with submits := m.submits + 1 }
  | .send x, m =>
      { m.modify x.id fun c => { c with owner := .channel } with channel := m.channel ++ [x] }
  | .endSubmit, m =>
      { m with queueSignal := m.queueSignal.wake.1, submits := m.submits - 1 }
  | .failSubmit e, m => { m.drop (.thread (.caller e)) with submits := m.submits - 1 }
  | .dropQueue, m => { m with queueAlive := false }
  | .beginRun e ts, m => m.move ts (.thread (.caller e))
  | .pass t, m => m.modify t fun c => { c with stage := .passed }
  | .dropTask t, m => m.modify t fun c => { c with owner := .gone }
  | .dropCaller e, m => m.drop (.thread (.caller e))
  | .newCallerSignal e, m => { m with callerSignal := update m.callerSignal e .new }
  | .waitCallerSignal e, m =>
      { m with callerSignal := update m.callerSignal e { m.callerSignal e with ready := false } }
  | .wakeCaller e, m =>
      { m with callerSignal := update m.callerSignal e (m.callerSignal e).wake.1 }

@[simp] theorem Op.exec_tau (m : Shared V P) : Op.tau.exec m = m := rfl

/-! ## Signals and channels -/

section

variable {m : Shared V P} {op : Op V P} {w : WorkerId}

-- makes the equations of `exec` once, for all the proofs below
attribute [local simp] Op.exec

/-- Only the dispatcher drops the receiver, when it leaves its loop. -/
theorem Op.dispatcherAlive_eq (ho : op ≠ .exitDispatcher) (ho' : op ≠ .dropDispatcher) :
    (op.exec m).dispatcherAlive = m.dispatcherAlive := by
  cases op <;> simp only [Op.exec]
  case exitDispatcher => exact absurd rfl ho
  case dropDispatcher => exact absurd rfl ho'
  case waitSignal t k => cases k <;> rfl
  case takeResult t k r => cases k <;> rfl
  case takeBuffer t k v => cases k <;> rfl
  case recv => split <;> rfl
  case recvWorker => split <;> rfl
  all_goals rfl

/-- A wake-up of the dispatcher is not taken by another operation. -/
theorem Op.queueSignal_ready (h : m.queueSignal.ready = true) (ho : op ≠ .waitQueueSignal) :
    (op.exec m).queueSignal.ready = true := by
  cases op <;> simp only [Op.exec]
  case waitQueueSignal => exact absurd rfl ho
  case waitSignal t k => cases k <;> exact h
  case takeResult t k r => cases k <;> exact h
  case takeBuffer t k v => cases k <;> exact h
  case wakeQueue t home site => cases home <;> first | exact h | rfl
  case recv => split <;> exact h
  case recvWorker => split <;> exact h
  all_goals first | exact h | rfl

/-- A wake-up of a worker is not taken by another operation. -/
theorem Op.workerSignal_ready (h : (m.workerSignal w).ready = true)
    (ho : op ≠ .waitWorkerSignal w) : ((op.exec m).workerSignal w).ready = true := by
  cases op <;> simp only [Op.exec]
  case waitWorkerSignal v =>
    have hv : w ≠ v := fun he => ho (he ▸ rfl)
    simpa [hv] using h
  case wakeWorker v =>
    by_cases hv : w = v
    · simp [hv]
    · simpa [hv] using h
  case waitSignal t k => cases k <;> exact h
  case takeResult t k r => cases k <;> exact h
  case takeBuffer t k v => cases k <;> exact h
  case recv => split <;> exact h
  case recvWorker => split <;> exact h
  all_goals exact h

/-- A semaphore is signalled by `signalSem` only. -/
theorem Op.sem_eq (g : SemId) : (op.exec m).sem g = m.sem g ∨ ∃ t, op = .signalSem t g := by
  cases op
  case signalSem t s =>
    by_cases hs : g = s
    · exact .inr ⟨t, by rw [hs]⟩
    · exact .inl (by simp [Op.exec, hs])
  case waitSignal t k => cases k <;> exact .inl rfl
  case takeResult t k r => cases k <;> exact .inl rfl
  case takeBuffer t k v => cases k <;> exact .inl rfl
  case recv =>
    simp only [Op.exec]
    split <;> exact .inl rfl
  case recvWorker =>
    simp only [Op.exec]
    split <;> exact .inl rfl
  all_goals exact .inl rfl

/-- What leaves the submission channel alone. -/
theorem Op.channel_eq (hr : op ≠ .recv) (hs : ∀ x, op ≠ .send x) (hd : op ≠ .dropDispatcher) :
    (op.exec m).channel = m.channel := by
  cases op <;> simp only [Op.exec]
  case recv => exact absurd rfl hr
  case send x => exact absurd rfl (hs x)
  case dropDispatcher => exact absurd rfl hd
  case waitSignal t k => cases k <;> rfl
  case takeResult t k r => cases k <;> rfl
  case takeBuffer t k v => cases k <;> rfl
  case recvWorker => split <;> rfl
  all_goals rfl

/-- What leaves the channel of a worker alone. -/
theorem Op.workerChannel_eq (hr : op ≠ .recvWorker w) (hs : ∀ x, op ≠ .sendWorker w x) :
    (op.exec m).workerChannel w = m.workerChannel w := by
  cases op <;> simp only [Op.exec]
  case recvWorker v =>
    have hv : w ≠ v := fun he => hr (he ▸ rfl)
    split
    · rfl
    · simp [hv]
  case sendWorker v x =>
    have hv : w ≠ v := fun he => hs x (he ▸ rfl)
    simp [hv]
  case waitSignal t k => cases k <;> rfl
  case takeResult t k r => cases k <;> rfl
  case takeBuffer t k v => cases k <;> rfl
  case recv => split <;> rfl
  all_goals rfl

/-- What is in the submission channel was there before, or is sent. -/
theorem Op.mem_channel {y : Task} (h : y ∈ (op.exec m).channel) :
    y ∈ m.channel ∨ op = .send y := by
  by_cases ho : op = .recv ∨ (∃ x, op = .send x) ∨ op = .dropDispatcher
  · rcases ho with rfl | ⟨x, rfl⟩ | rfl
    · simp only [Op.exec] at h
      split at h
      · exact .inl h
      case h_2 c hc => exact .inl (hc ▸ List.mem_cons_of_mem _ h)
    · rcases List.mem_append.mp h with h | h
      · exact .inl h
      · exact .inr (by rw [List.mem_singleton.mp h])
    · cases h
  · simp only [not_or, not_exists] at ho
    exact .inl (Op.channel_eq ho.1 ho.2.1 ho.2.2 ▸ h)

/-- What is added to the channel of a worker is sent to it. -/
theorem Op.mem_workerChannel {y : Task} (h : y ∈ (op.exec m).workerChannel w) :
    y ∈ m.workerChannel w ∨ op = .sendWorker w y := by
  by_cases ho : op = .recvWorker w ∨ ∃ x, op = .sendWorker w x
  · rcases ho with rfl | ⟨x, rfl⟩
    · simp only [Op.exec] at h
      split at h
      · exact .inl h
      case h_2 x c hc => exact .inl (hc ▸ List.mem_cons_of_mem x (by simpa using h))
    · simpa [Op.exec, eq_comm] using h
  · simp only [not_or, not_exists] at ho
    exact .inl (Op.workerChannel_eq ho.1 ho.2 ▸ h)

end

end MVSync
