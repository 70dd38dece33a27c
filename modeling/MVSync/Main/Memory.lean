import MVSync.Pool.Future

/-!
# The memory of the worker threads

`WorkerThread` of `queue.rs`, the field `worker` of `MVSync`, and `await_sync`.

A `WorkerThread` is either a thread of the pool or the registered main thread.
Both run `WorkerThread::run`, here over futures that are opaque: a poll is user
code that may do anything before it ends.  Workers are numbered in the order of
their creation, and a `WorkerThread` that `worker.replace` puts in the place of
another one is a new number.

The lock of `MVSync.worker` is held by any number of readers or by one writer, and
the memory says by whom.  A panic while the lock is held drops the guard, and
`recover` makes the poisoned lock usable, so that nothing is left of it.
-/

namespace MVSync.Main

abbrev ThreadId := Nat

/-- A call of `await_sync` or `await_sync_safe`, with the future it was given. -/
abbrev AwaitId := Nat

/-- The threads.  A call of `WorkerThread::run` and of `await_sync` is a thread of
its own, for which the thread that made the call waits. -/
inductive Tid where
  | user (i : ThreadId)
  | run (g : WorkerId)
  | await (f : AwaitId)
deriving DecidableEq, Repr

/-- What a waker belongs to: the future of a task on a worker, or the future of an
`await_sync`. -/
inductive Polled where
  | task (g : WorkerId) (t : TaskId)
  | awaited (f : AwaitId)
deriving DecidableEq, Repr

/-- `WorkerThread`, its channel, and the arguments of its `run`. -/
structure WorkerThread where
  channel : List Task
  /-- The receiver of the channel is not dropped. -/
  receiver : Bool
  /-- The sender of the channel is not dropped. -/
  sender : Bool
  freeWorkers : UInt32
  /-- `end`. -/
  endFlag : Nat
  signal : Signal Empty
  endWhenDone : Bool
  /-- The worker belongs to a queue, not to `MVSync.worker`. -/
  pool : Bool
  /-- `WorkerThread::run` was called. -/
  started : Bool
deriving DecidableEq, Repr

namespace WorkerThread

/-- The worker that `register_main_thread` makes. -/
def registered (endWhenDone : Bool) : WorkerThread :=
  ⟨[], true, true, 4294967295, 0, .new, endWhenDone, false, false⟩

/-- `WorkerThread::new`, which spawns the thread of `run`. -/
def new (workersPerThread : UInt32) : WorkerThread :=
  ⟨[], true, true, workersPerThread, 0, .new, false, true, true⟩

/-- `WorkerThread::ended`. -/
def ended (w : WorkerThread) : Bool := w.endFlag > 0

/-- `WorkerThread::finished`. -/
def finished (w : WorkerThread) : Bool := w.endFlag > 1

end WorkerThread

/-- What a call of `await_sync` shares. -/
structure Await where
  called : Bool
  returned : Bool
  signal : Signal Empty
deriving DecidableEq, Repr

/-- What the threads share. -/
structure Shared (P : Type) where
  state : TaskId → TaskState P
  workers : WorkerId → WorkerThread
  /-- The number of workers. -/
  count : Nat
  /-- `MVSync.worker`. -/
  worker : Option WorkerId
  /-- The threads that hold its lock for reading. -/
  readers : List Tid
  /-- The thread that holds its lock for writing. -/
  writer : Option Tid
  awaits : AwaitId → Await
  /-- History: the thread that a task was moved to. -/
  owner : TaskId → Option Tid
  /-- History: the tasks that `submit_to_main_thread` put into a channel. -/
  submitted : List (WorkerId × TaskId)
  /-- History: the tasks with which `submit_to_main_thread` returned. -/
  accepted : List (WorkerId × TaskId)
  /-- History: the tasks whose completion signal was woken. -/
  settled : List (WorkerId × TaskId)
  /-- History: the tasks whose `WorkerThread::send` has woken the worker. -/
  delivered : List (WorkerId × TaskId)
  /-- History: the workers for which `end_main_thread` returned. -/
  ends : List WorkerId
  /-- History: the waker was invoked since the last poll of the future began. -/
  woken : Polled → Bool

namespace Shared

variable {P : Type}

/-- A change of one worker. -/
def modify (m : Shared P) (g : WorkerId) (k : WorkerThread → WorkerThread) : Shared P :=
  { m with workers := Function.update m.workers g (k (m.workers g)) }

/-- A change of one `await_sync`. -/
def modifyAwait (m : Shared P) (f : AwaitId) (k : Await → Await) : Shared P :=
  { m with awaits := Function.update m.awaits f (k (m.awaits f)) }

/-- The receiver of the channel is empty: `receiver.is_empty()`. -/
def isEmpty (m : Shared P) (g : WorkerId) : Bool := (m.workers g).channel.isEmpty

/-- The test of `main_thread_ended`. -/
def mainThreadEnded (m : Shared P) : Bool :=
  match m.worker with
  | none => true
  | some g => (m.workers g).ended

/-- The test of `main_thread_finished` and `register_main_thread`. -/
def mainThreadFinished (m : Shared P) : Bool :=
  match m.worker with
  | none => true
  | some g => (m.workers g).finished

/-- The state when `MVSync::new` returns. -/
def init : Shared P where
  state _ := .pending
  workers _ := .registered false
  count := 0
  worker := none
  readers := []
  writer := none
  awaits _ := ⟨false, false, .new⟩
  owner _ := none
  submitted := []
  accepted := []
  settled := []
  delivered := []
  ends := []
  woken _ := false

end Shared

/-- What the return of a call adds to the history. -/
inductive Note where
  | nothing
  /-- `submit_to_main_thread` returns. -/
  | accepted (g : WorkerId) (t : TaskId)
  /-- `end_main_thread` returns. -/
  | ended (g : WorkerId)
deriving DecidableEq, Repr

/-- The atomic operations. -/
inductive Op (P : Type) where
  | tau
  /-- A task is moved into a call. -/
  | own (t : TaskId) (i : Tid)
  /-- `self.worker.read()`. -/
  | readLock (i : Tid)
  /-- `self.worker.write()`. -/
  | writeLock (i : Tid)
  /-- The guard is dropped. -/
  | unlock (i : Tid) (note : Note)
  /-- `worker.replace(..)`.  The worker in its place is dropped. -/
  | replaceWorker (endWhenDone : Bool)
  /-- `WorkerThread::new`. -/
  | newWorker (workersPerThread : UInt32)
  /-- `WorkerThread::run` is called. -/
  | callRun (g : WorkerId)
  /-- `self.sender.send(task)`.  The flag says whether it is a
  `submit_to_main_thread`. -/
  | send (g : WorkerId) (x : Task) (submit : Bool)
  | fetchSub (g : WorkerId)
  /-- `self.signal.clone().wake()`, after the send of a task. -/
  | wakeSend (g : WorkerId) (t : TaskId)
  /-- The `WorkerThread` is dropped. -/
  | dropSender (g : WorkerId)
  /-- `end.store(v)`. -/
  | storeEnd (g : WorkerId) (v : Nat)
  /-- `receiver.recv()` and `receiver.try_recv()`. -/
  | recv (g : WorkerId)
  /-- A poll begins. -/
  | poll (u : Polled)
  /-- `state.write().unwrap().replace(..)`. -/
  | replace (t : TaskId) (st : TaskState P)
  | fetchAdd (g : WorkerId)
  /-- `Semaphore::signal`, which only the dispatcher looks at. -/
  | signalSem (s : SemId)
  /-- The completion signal is woken. -/
  | wakeSignal (g : WorkerId) (t : TaskId)
  /-- The signal of the queue is woken, which only the dispatcher waits for. -/
  | wakeQueue
  /-- `signal.wait()` of a worker. -/
  | waitSignal (g : WorkerId)
  /-- `run` returns, and drops the receiver. -/
  | dropReceiver (g : WorkerId)
  /-- A waker is invoked. -/
  | wake (u : Polled)
  | callAwait (f : AwaitId)
  /-- `signal.wait()` of `await_sync`. -/
  | waitAwait (f : AwaitId)
  | returnAwait (f : AwaitId)

/-- The tasks with which `submit_to_main_thread` returned, after the return of a call. -/
def Note.addAccepted : Note → List (WorkerId × TaskId) → List (WorkerId × TaskId)
  | .accepted g t, l => (g, t) :: l
  | _, l => l

/-- The workers for which `end_main_thread` returned, after the return of a call. -/
def Note.addEnds : Note → List WorkerId → List WorkerId
  | .ended g, l => g :: l
  | _, l => l

variable {P : Type}

/-- The workers when the one in `MVSync.worker` is dropped. -/
def Shared.dropWorker (m : Shared P) : WorkerId → WorkerThread :=
  match m.worker with
  | none => m.workers
  | some g => Function.update m.workers g { m.workers g with sender := false }

/-- The workers when a waker is invoked. -/
def Shared.wakeWorkers (m : Shared P) : Polled → WorkerId → WorkerThread
  | .task g _ =>
      Function.update m.workers g
        { m.workers g with signal := (m.workers g).signal.wake.1 }
  | .awaited _ => m.workers

/-- The calls of `await_sync` when a waker is invoked. -/
def Shared.wakeAwaits (m : Shared P) : Polled → AwaitId → Await
  | .task _ _ => m.awaits
  | .awaited f =>
      Function.update m.awaits f { m.awaits f with signal := (m.awaits f).signal.wake.1 }

/-- What an operation does. -/
def Op.exec : Op P → Shared P → Shared P
  | .tau, m => m
  | .own t i, m => { m with owner := Function.update m.owner t (some i) }
  | .readLock i, m => { m with readers := i :: m.readers }
  | .writeLock i, m => { m with writer := some i }
  | .unlock i note, m =>
      { m with
        readers := m.readers.erase i
        writer := if m.writer = some i then none else m.writer
        accepted := note.addAccepted m.accepted
        ends := note.addEnds m.ends }
  | .replaceWorker endWhenDone, m =>
      { m with
        workers := Function.update m.dropWorker m.count (.registered endWhenDone)
        worker := some m.count
        count := m.count + 1 }
  | .newWorker n, m =>
      { m.modify m.count (fun _ => .new n) with count := m.count + 1 }
  | .callRun g, m => m.modify g fun w => { w with started := true }
  | .send g x submit, m =>
      { m.modify g (fun w => { w with channel := w.channel ++ [x] }) with
        submitted := if submit then (g, x.id) :: m.submitted else m.submitted }
  | .fetchSub g, m => m.modify g fun w => { w with freeWorkers := w.freeWorkers - 1 }
  | .wakeSend g t, m =>
      { m.modify g (fun w => { w with signal := w.signal.wake.1 }) with
        delivered := (g, t) :: m.delivered }
  | .dropSender g, m => m.modify g fun w => { w with sender := false }
  | .storeEnd g v, m => m.modify g fun w => { w with endFlag := v }
  | .recv g, m => m.modify g fun w => { w with channel := w.channel.tail }
  | .poll u, m => { m with woken := Function.update m.woken u false }
  | .replace t st, m => { m with state := Function.update m.state t st }
  | .fetchAdd g, m => m.modify g fun w => { w with freeWorkers := w.freeWorkers + 1 }
  | .signalSem _, m => m
  | .wakeSignal g t, m => { m with settled := (g, t) :: m.settled }
  | .wakeQueue, m => m
  | .waitSignal g, m => m.modify g fun w => { w with signal := { w.signal with ready := false } }
  | .dropReceiver g, m => m.modify g fun w => { w with receiver := false }
  | .wake u, m =>
      { m with
        woken := Function.update m.woken u true
        workers := m.wakeWorkers u
        awaits := m.wakeAwaits u }
  | .callAwait f, m => m.modifyAwait f fun w => { w with called := true }
  | .waitAwait f, m =>
      m.modifyAwait f fun w => { w with signal := { w.signal with ready := false } }
  | .returnAwait f, m => m.modifyAwait f fun w => { w with returned := true }

/-! ## What an operation leaves alone -/

section

variable {m : Shared P} {g : WorkerId}

@[simp] theorem Shared.modify_workers (k : WorkerThread → WorkerThread) :
    (m.modify g k).workers = Function.update m.workers g (k (m.workers g)) := rfl

/-- The operations that change who holds the lock of `MVSync.worker`. -/
def Op.locks : Op P → Bool
  | .readLock _ | .writeLock _ | .unlock _ _ => true
  | _ => false

theorem Op.exec_worker {o : Op P} (h : ∀ b, o ≠ .replaceWorker b) :
    (o.exec m).worker = m.worker := by
  cases o with
  | replaceWorker b => exact absurd rfl (h b)
  | _ => rfl

theorem Op.exec_readers {o : Op P} (h : o.locks = false) :
    (o.exec m).readers = m.readers ∧ (o.exec m).writer = m.writer := by
  cases o with
  | readLock i => cases h
  | writeLock i => cases h
  | unlock i note => cases h
  | _ => exact ⟨rfl, rfl⟩

theorem Op.exec_owner {o : Op P} (h : ∀ t i, o ≠ .own t i) : (o.exec m).owner = m.owner := by
  cases o with
  | own t i => exact absurd rfl (h t i)
  | _ => rfl

theorem Op.exec_delivered {o : Op P} (h : ∀ g t, o ≠ .wakeSend g t) :
    (o.exec m).delivered = m.delivered := by
  cases o with
  | wakeSend g t => exact absurd rfl (h g t)
  | _ => rfl

/-- What an operation can make of a worker. -/
inductive Op.Makes (m : Shared P) (g : WorkerId) : Op P → WorkerThread → Prop where
  | same {o : Op P} : Makes m g o (m.workers g)
  | registered {b : Bool} (h : g = m.count) : Makes m g (.replaceWorker b) (.registered b)
  | replaced {b : Bool} (h : m.worker = some g) :
      Makes m g (.replaceWorker b) { m.workers g with sender := false }
  | new {n : UInt32} (h : g = m.count) : Makes m g (.newWorker n) (.new n)
  | callRun : Makes m g (.callRun g) { m.workers g with started := true }
  | send {x : Task} {b : Bool} :
      Makes m g (.send g x b) { m.workers g with channel := (m.workers g).channel ++ [x] }
  | fetchSub :
      Makes m g (.fetchSub g) { m.workers g with freeWorkers := (m.workers g).freeWorkers - 1 }
  | wakeSend {t : TaskId} :
      Makes m g (.wakeSend g t) { m.workers g with signal := (m.workers g).signal.wake.1 }
  | wake {t : TaskId} :
      Makes m g (.wake (.task g t)) { m.workers g with signal := (m.workers g).signal.wake.1 }
  | dropSender : Makes m g (.dropSender g) { m.workers g with sender := false }
  | storeEnd {v : Nat} : Makes m g (.storeEnd g v) { m.workers g with endFlag := v }
  | recv : Makes m g (.recv g) { m.workers g with channel := (m.workers g).channel.tail }
  | fetchAdd :
      Makes m g (.fetchAdd g) { m.workers g with freeWorkers := (m.workers g).freeWorkers + 1 }
  | waitSignal :
      Makes m g (.waitSignal g)
        { m.workers g with signal := { (m.workers g).signal with ready := false } }
  | dropReceiver : Makes m g (.dropReceiver g) { m.workers g with receiver := false }

theorem Op.makes (o : Op P) (m : Shared P) (g : WorkerId) :
    Op.Makes m g o ((o.exec m).workers g) := by
  have modify : ∀ {o : Op P} (h : WorkerId) (k : WorkerThread → WorkerThread),
      (o.exec m).workers = (m.modify h k).workers →
        (h = g → Op.Makes m g o (k (m.workers g))) → Op.Makes m g o ((o.exec m).workers g) := by
    intro o h k he hk
    rw [he]
    by_cases hg : h = g
    · subst hg
      simpa using hk rfl
    · rw [Shared.modify_workers, Function.update_of_ne (Ne.symm hg)]
      exact .same
  cases o with
  | replaceWorker b =>
      have hw : ((Op.replaceWorker b).exec m).workers =
          Function.update m.dropWorker m.count (.registered b) := rfl
      rw [hw]
      by_cases hg : g = m.count
      · subst hg
        rw [Function.update_self]
        exact .registered rfl
      · rw [Function.update_of_ne hg]
        cases hm : m.worker with
        | none =>
            have hd : m.dropWorker = m.workers := by simp only [Shared.dropWorker, hm]
            rw [hd]
            exact .same
        | some h =>
            have hd : m.dropWorker =
                Function.update m.workers h { m.workers h with sender := false } := by
              simp only [Shared.dropWorker, hm]
            rw [hd]
            by_cases hh : g = h
            · subst hh
              rw [Function.update_self]
              exact .replaced hm
            · rw [Function.update_of_ne hh]
              exact .same
  | newWorker n => exact modify m.count (fun _ => .new n) rfl fun e => .new e.symm
  | callRun h => exact modify h _ rfl fun e => e ▸ .callRun
  | send h x b =>
      exact modify h (fun w => { w with channel := w.channel ++ [x] }) rfl fun e => e ▸ .send
  | fetchSub h => exact modify h _ rfl fun e => e ▸ .fetchSub
  | wakeSend h t =>
      exact modify h (fun w => { w with signal := w.signal.wake.1 }) rfl fun e => e ▸ .wakeSend
  | dropSender h => exact modify h _ rfl fun e => e ▸ .dropSender
  | storeEnd h v => exact modify h _ rfl fun e => e ▸ .storeEnd
  | recv h => exact modify h _ rfl fun e => e ▸ .recv
  | fetchAdd h => exact modify h _ rfl fun e => e ▸ .fetchAdd
  | waitSignal h => exact modify h _ rfl fun e => e ▸ .waitSignal
  | dropReceiver h => exact modify h _ rfl fun e => e ▸ .dropReceiver
  | wake u =>
      cases u with
      | task h t =>
          exact modify h (fun w => { w with signal := w.signal.wake.1 }) rfl fun e => e ▸ .wake
      | awaited f => exact .same
  | _ => exact .same

end

end MVSync.Main
