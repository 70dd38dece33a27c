import MVSync.Concurrency.System
import MVSync.Main.Memory

/-!
# The main thread and the workers

The calls of user code that concern `MVSync.worker`, the loop of
`WorkerThread::run`, and `await_sync`, over their shared memory.

User code runs in the threads of the user, inside every poll of a worker, and
inside every poll of an `await_sync`.  It is not modelled further: between two
calls it may invoke any waker and cancel any task.  A waker can be invoked here
also before the first poll that hands it out.
-/

namespace MVSync.Main

open Concurrency

variable {P : Type}

/-! ## Calls -/

/-- The functions of `MVSync` that take the lock of `worker`. -/
inductive Call where
  | registerMainThread (init : Task) (endWhenDone : Bool)
  | submitToMainThread (task : Task)
  | endMainThread
  | mainThreadEnded
  | mainThreadFinished
deriving DecidableEq, Repr

/-- The task that is moved into a call.  For `register_main_thread` it is the one
made from `init`. -/
def Call.task : Call → Option Task
  | .registerMainThread x _ | .submitToMainThread x => some x
  | _ => none

/-- `self.worker.write()`, or else `self.worker.read()`. -/
def Call.writes : Call → Bool
  | .submitToMainThread _ => false
  | _ => true

/-- How a call ends. -/
inductive Outcome where
  | returned
  | answer (b : Bool)
  | panicked
deriving DecidableEq, Repr

/-- Who calls `WorkerThread::send`. -/
inductive Sender where
  | registerMainThread
  | submitToMainThread
  /-- The dispatcher of a queue. -/
  | dispatcher
deriving DecidableEq, Repr

/-- Where `WorkerThread::send` is. -/
inductive SendPc where
  | send
  | fetchSub
  | wake
deriving DecidableEq, Repr

/-- Where user code is. -/
inductive CallPc where
  /-- Outside of the modelled calls, with the end of the last one. -/
  | code (last : Option Outcome)
  | lock (c : Call)
  /-- The test under the lock. -/
  | check (c : Call)
  /-- `worker.replace(..)`. -/
  | replaceWorker (x : Task) (endWhenDone : Bool)
  | send (k : Sender) (g : WorkerId) (x : Task) (p : SendPc)
  /-- `WorkerThread::end`. -/
  | storeEnd (g : WorkerId)
  /-- The guard is dropped at the end of a call. -/
  | unlock (r : Outcome) (note : Note)
  /-- `drop(worker)` in `register_main_thread`. -/
  | dropWorker (g : WorkerId)
  /-- `WorkerThread::run` is called by `register_main_thread`. -/
  | callRun (g : WorkerId)
  | running (g : WorkerId)
  | awaiting (f : AwaitId)
deriving DecidableEq, Repr

/-- What user code does next. -/
inductive UserInput where
  | proceed
  | call (c : Call)
  /-- `WorkerThread::new`. -/
  | newWorker (workersPerThread : UInt32)
  /-- `WorkerThread::send` on a thread of the pool. -/
  | send (g : WorkerId) (x : Task)
  /-- A thread of the pool is dropped, with the queue it belongs to. -/
  | dropSender (g : WorkerId)
  | await (f : AwaitId)
  /-- A waker is invoked. -/
  | wake (u : Polled)
  /-- `TaskController::cancel` and `TaskHandle::cancel`. -/
  | cancel (t : TaskId)
deriving DecidableEq, Repr

/-- What follows `WorkerThread::send`. -/
def Sender.after (g : WorkerId) (x : Task) : Sender → CallPc
  | .registerMainThread => .dropWorker g
  | .submitToMainThread => .unlock .returned (.accepted g x.id)
  | .dispatcher => .code (some .returned)

/-- `.expect("Failed to send task!")`. -/
def Sender.fail : Sender → CallPc
  | .registerMainThread | .submitToMainThread => .unlock .panicked .nothing
  | .dispatcher => .code (some .panicked)

/-- One step of the user code of thread `i`. -/
def callNext (i : Tid) (c : UserInput) : CallPc → Shared P → Option (CallPc × Op P)
  | .code last, m =>
      match c with
      | .proceed => none
      | .call k =>
          match k.task with
          | none => some (.lock k, .tau)
          | some x => if (m.owner x.id).isNone then some (.lock k, .own x.id i) else none
      | .newWorker n => some (.code (some .returned), .newWorker n)
      | .send g x =>
          if (m.workers g).pool && (m.owner x.id).isNone then
            some (.send .dispatcher g x .send, .own x.id i)
          else none
      | .dropSender g =>
          if (m.workers g).pool then some (.code last, .dropSender g) else none
      | .await f => if (m.awaits f).called then none else some (.awaiting f, .callAwait f)
      | .wake u => some (.code last, .wake u)
      | .cancel t => some (.code last, .replace t .cancelled)
  | .lock k, m =>
      if m.writer.isSome then none
      else if k.writes then if m.readers = [] then some (.check k, .writeLock i) else none
      else some (.check k, .readLock i)
  | .check (.registerMainThread x endWhenDone), m =>
      if m.mainThreadFinished then some (.replaceWorker x endWhenDone, .tau)
      else some (.unlock .panicked .nothing, .tau)
  | .check (.submitToMainThread x), m =>
      match m.worker with
      | none => some (.unlock .panicked .nothing, .tau)
      | some g =>
          if (m.workers g).ended then some (.unlock .panicked .nothing, .tau)
          else some (.send .submitToMainThread g x .send, .tau)
  | .check .endMainThread, m =>
      match m.worker with
      | none => some (.unlock .returned .nothing, .tau)
      | some g =>
          if (m.workers g).ended then some (.unlock .returned (.ended g), .tau)
          else some (.storeEnd g, .tau)
  | .check .mainThreadEnded, m => some (.unlock (.answer m.mainThreadEnded) .nothing, .tau)
  | .check .mainThreadFinished, m => some (.unlock (.answer m.mainThreadFinished) .nothing, .tau)
  | .replaceWorker x endWhenDone, m =>
      some (.send .registerMainThread m.count x .send, .replaceWorker endWhenDone)
  | .send k g x .send, m =>
      if (m.workers g).receiver then
        some (.send k g x .fetchSub, .send g x (k == .submitToMainThread))
      else some (k.fail, .tau)
  | .send k g x .fetchSub, _ => some (.send k g x .wake, .fetchSub g)
  | .send k g x .wake, _ => some (k.after g x, .wakeSend g x.id)
  | .storeEnd g, _ => some (.unlock .returned (.ended g), .storeEnd g 1)
  | .unlock r note, _ => some (.code (some r), .unlock i note)
  | .dropWorker g, _ => some (.callRun g, .unlock i .nothing)
  | .callRun g, _ => some (.running g, .callRun g)
  | .running g, m =>
      if (m.workers g).receiver then none else some (.code (some .returned), .tau)
  | .awaiting f, m => if (m.awaits f).returned then some (.code none, .tau) else none

/-! ## The loop of a worker -/

/-- Where `WorkerThread::run` is. -/
inductive RunPc (P : Type) where
  /-- Not called. -/
  | idle
  /-- The head of the loop, and its `try_recv` loop. -/
  | top (futures : List Task)
  /-- `end_when_done && receiver.is_empty()`. -/
  | isEmpty
  /-- `receiver.recv()`. -/
  | recv
  /-- The head of `retain_mut`. -/
  | retain (kept todo : List Task)
  /-- In the user code of a poll. -/
  | poll (x : Task) (call : CallPc) (kept todo : List Task)
  /-- The `Pending` arm. -/
  | pendingArm (x : Task) (kept todo : List Task)
  /-- The `Err` arm. -/
  | errArm (x : Task) (q : Payload P) (kept todo : List Task)
  /-- The `Ready` arm. -/
  | readyArm (x : Task) (kept todo : List Task)
  | settle (x : Task) (sp : SettlePc) (kept todo : List Task)
  /-- After `retain_mut`. -/
  | check (futures : List Task)
  /-- `signal.wait()`. -/
  | wait (futures : List Task)
  /-- `end.store(2)`, after the loop. -/
  | store
  /-- The end of the function. -/
  | drop
  | returned
deriving DecidableEq, Repr

/-- What a poll does next. -/
inductive PollInput (P : Type) where
  | pending
  | ready
  | panics (q : Payload P)
  /-- The future writes its state. -/
  | writes (st : TaskState P)
  /-- Another step of user code. -/
  | user (c : UserInput)

/-- One step of `WorkerThread::run` of worker `g`. -/
def runNext (g : WorkerId) (c : PollInput P) : RunPc P → Shared P → Option (RunPc P × Op P)
  | .idle, m => if (m.workers g).started then some (.top [], .tau) else none
  | .top [], m =>
      if (m.workers g).endFlag > 0 then some (.store, .tau)
      else if (m.workers g).endWhenDone then some (.isEmpty, .tau)
      else some (.recv, .tau)
  | .top (f :: fs), m =>
      match (m.workers g).channel with
      | x :: _ => some (.top (f :: fs ++ [x]), .recv g)
      | [] => some (.retain [] (f :: fs), .tau)
  | .isEmpty, m => if m.isEmpty g then some (.store, .tau) else some (.recv, .tau)
  | .recv, m =>
      match (m.workers g).channel with
      | x :: _ => some (.retain [] [x], .recv g)
      | [] => if (m.workers g).sender then none else some (.store, .tau)
  | .retain kept [], _ => some (.check kept, .tau)
  | .retain kept (x :: todo), _ =>
      some (.poll x (.code none) kept todo, .poll (.task g x.id))
  | .poll x call kept todo, m =>
      match c with
      | .user c =>
          (callNext (.run g) c call m).map fun r => (.poll x r.1 kept todo, r.2)
      | .pending =>
          match call with
          | .code _ => some (.pendingArm x kept todo, .tau)
          | _ => none
      | .ready =>
          match call with
          | .code _ => some (.readyArm x kept todo, .tau)
          | _ => none
      | .panics q =>
          match call with
          | .code _ => some (.errArm x q kept todo, .tau)
          | _ => none
      | .writes st =>
          match call with
          | .code _ => some (.poll x call kept todo, .replace x.id st)
          | _ => none
  | .pendingArm x kept todo, m =>
      if m.state x.id == .cancelled then some (.settle x (.begin x) kept todo, .tau)
      else some (.retain (kept ++ [x]) todo, .tau)
  | .errArm x q kept todo, _ =>
      some (.settle x (.begin x) kept todo, .replace x.id (.panicked q))
  | .readyArm x kept todo, _ => some (.settle x (.begin x) kept todo, .fetchAdd g)
  | .settle x (.signals (s :: ss)) kept todo, _ =>
      some (.settle x (.signals ss) kept todo, .signalSem s)
  | .settle x (.signals []) kept todo, _ =>
      some (.settle x .wakeQueue kept todo, .wakeSignal g x.id)
  | .settle _ .wakeQueue kept todo, _ => some (.retain kept todo, .wakeQueue)
  | .check [], _ => some (.top [], .tau)
  | .check (f :: fs), m =>
      if m.isEmpty g then some (.wait (f :: fs), .tau) else some (.top (f :: fs), .tau)
  | .wait futures, m =>
      (m.workers g).signal.wait?.map fun _ => (.top futures, .waitSignal g)
  | .store, _ => some (.drop, .storeEnd g 2)
  | .drop, _ => some (.returned, .dropReceiver g)
  | .returned, _ => none

/-! ## `await_sync` -/

/-- Where `await_sync` is. -/
inductive AwaitPc where
  /-- Not called. -/
  | idle
  /-- The head of the loop. -/
  | top
  /-- In the user code of a poll. -/
  | poll (call : CallPc)
  /-- `signal.wait()`. -/
  | wait
  | returned
deriving DecidableEq, Repr

/-- One step of `await_sync` and `await_sync_safe`.  They differ in what they do with
a panic of the future, and both end with it. -/
def awaitNext (f : AwaitId) (c : PollInput P) : AwaitPc → Shared P → Option (AwaitPc × Op P)
  | .idle, m => if (m.awaits f).called then some (.top, .tau) else none
  | .top, _ => some (.poll (.code none), .poll (.awaited f))
  | .poll call, m =>
      match c with
      | .user c => (callNext (.await f) c call m).map fun r => (.poll r.1, r.2)
      | .pending =>
          match call with
          | .code _ => some (.wait, .tau)
          | _ => none
      | .ready | .panics _ =>
          match call with
          | .code _ => some (.returned, .returnAwait f)
          | _ => none
      | .writes _ => none
  | .wait, m => (m.awaits f).signal.wait?.map fun _ => (.top, .waitAwait f)
  | .returned, _ => none

/-! ## The system -/

/-- The positions of a thread. -/
@[reducible] def Tid.Pc (P : Type) : Tid → Type
  | .user _ => CallPc
  | .run _ => RunPc P
  | .await _ => AwaitPc

/-- The choices of the environment for a thread. -/
@[reducible] def Tid.Input (P : Type) : Tid → Type
  | .user _ => UserInput
  | .run _ | .await _ => PollInput P

/-- The threads over their shared memory. -/
def main (P : Type) : System Tid (Shared P) (Op P) where
  Pc := Tid.Pc P
  Input := Tid.Input P
  exec := Op.exec
  next
    | .user i, c, p, m => callNext (.user i) c p m
    | .run g, c, p, m => runNext g c p m
    | .await f, c, p, m => awaitNext f c p m

/-- The state when `MVSync::new` returns. -/
def init : (main P).State where
  mem := .init
  pc
    | .user _ => .code none
    | .run _ => .idle
    | .await _ => .idle

/-- The position of the loop of a worker. -/
def run (s : (main P).State) (g : WorkerId) : RunPc P := s.pc (.run g)

/-- The position of an `await_sync`. -/
def await (s : (main P).State) (f : AwaitId) : AwaitPc := s.pc (.await f)

section

variable (s : (main P).State) (o : Op P)

@[simp] theorem run_move (g : WorkerId) (p : RunPc P) : run (s.move (.run g) p o) g = p :=
  System.State.move_pc_self s (.run g) p o

theorem run_move_of_ne {i : Tid} {g : WorkerId} (h : .run g ≠ i) (p : Tid.Pc P i) :
    run (s.move i p o) g = run s g := System.State.move_pc_of_ne s p o h

@[simp] theorem await_move (f : AwaitId) (p : AwaitPc) : await (s.move (.await f) p o) f = p :=
  System.State.move_pc_self s (.await f) p o

theorem await_move_of_ne {i : Tid} {f : AwaitId} (h : .await f ≠ i) (p : Tid.Pc P i) :
    await (s.move i p o) f = await s f := System.State.move_pc_of_ne s p o h

end

/-- The states that can be reached. -/
abbrev Reachable (s : (main P).State) : Prop := System.Reach init s

/-! ## What a step can be -/

/-- The steps of user code. -/
inductive CallStep (i : Tid) (m : Shared P) : CallPc → CallPc → Op P → Prop where
  | call {last : Option Outcome} {k : Call} (h : k.task = none) :
      CallStep i m (.code last) (.lock k) .tau
  | move {last : Option Outcome} {k : Call} {x : Task} (h : k.task = some x)
      (ho : m.owner x.id = none) : CallStep i m (.code last) (.lock k) (.own x.id i)
  | newWorker {last : Option Outcome} {n : UInt32} :
      CallStep i m (.code last) (.code (some .returned)) (.newWorker n)
  | dispatch {last : Option Outcome} {g : WorkerId} {x : Task}
      (hg : (m.workers g).pool = true) (ho : m.owner x.id = none) :
      CallStep i m (.code last) (.send .dispatcher g x .send) (.own x.id i)
  | dropSender {last : Option Outcome} {g : WorkerId} (hg : (m.workers g).pool = true) :
      CallStep i m (.code last) (.code last) (.dropSender g)
  | await {last : Option Outcome} {f : AwaitId} :
      CallStep i m (.code last) (.awaiting f) (.callAwait f)
  | wake {last : Option Outcome} {u : Polled} :
      CallStep i m (.code last) (.code last) (.wake u)
  | cancel {last : Option Outcome} {t : TaskId} :
      CallStep i m (.code last) (.code last) (.replace t .cancelled)
  | writeLock {k : Call} (hw : m.writer = none) (hr : m.readers = []) (hk : k.writes = true) :
      CallStep i m (.lock k) (.check k) (.writeLock i)
  | readLock {k : Call} (hw : m.writer = none) (hk : k.writes = false) :
      CallStep i m (.lock k) (.check k) (.readLock i)
  | register {x : Task} {endWhenDone : Bool} (h : m.mainThreadFinished = true) :
      CallStep i m (.check (.registerMainThread x endWhenDone)) (.replaceWorker x endWhenDone) .tau
  | submit {g : WorkerId} {x : Task} (hg : m.worker = some g)
      (he : (m.workers g).endFlag = 0) :
      CallStep i m (.check (.submitToMainThread x)) (.send .submitToMainThread g x .send) .tau
  | endMain {g : WorkerId} (hg : m.worker = some g) (he : (m.workers g).endFlag = 0) :
      CallStep i m (.check .endMainThread) (.storeEnd g) .tau
  | ended {g : WorkerId} (hg : m.worker = some g) (he : (m.workers g).endFlag ≠ 0) :
      CallStep i m (.check .endMainThread) (.unlock .returned (.ended g)) .tau
  | answer {k : Call} {r : Outcome} : CallStep i m (.check k) (.unlock r .nothing) .tau
  | replaceWorker {x : Task} {endWhenDone : Bool} :
      CallStep i m (.replaceWorker x endWhenDone) (.send .registerMainThread m.count x .send)
        (.replaceWorker endWhenDone)
  | send {k : Sender} {g : WorkerId} {x : Task} (h : (m.workers g).receiver = true) :
      CallStep i m (.send k g x .send) (.send k g x .fetchSub)
        (.send g x (k == .submitToMainThread))
  | fail {k : Sender} {g : WorkerId} {x : Task} (h : (m.workers g).receiver = false) :
      CallStep i m (.send k g x .send) k.fail .tau
  | fetchSub {k : Sender} {g : WorkerId} {x : Task} :
      CallStep i m (.send k g x .fetchSub) (.send k g x .wake) (.fetchSub g)
  | wakeSend {k : Sender} {g : WorkerId} {x : Task} :
      CallStep i m (.send k g x .wake) (k.after g x) (.wakeSend g x.id)
  | storeEnd {g : WorkerId} :
      CallStep i m (.storeEnd g) (.unlock .returned (.ended g)) (.storeEnd g 1)
  | unlock {r : Outcome} {note : Note} :
      CallStep i m (.unlock r note) (.code (some r)) (.unlock i note)
  | dropWorker {g : WorkerId} : CallStep i m (.dropWorker g) (.callRun g) (.unlock i .nothing)
  | callRun {g : WorkerId} : CallStep i m (.callRun g) (.running g) (.callRun g)
  | ran {g : WorkerId} (h : (m.workers g).receiver = false) :
      CallStep i m (.running g) (.code (some .returned)) .tau
  | awaited {f : AwaitId} : CallStep i m (.awaiting f) (.code none) .tau

/-- The steps of `WorkerThread::run`. -/
inductive RunStep (g : WorkerId) (m : Shared P) : RunPc P → RunPc P → Op P → Prop where
  | start (h : (m.workers g).started = true) : RunStep g m .idle (.top []) .tau
  | ended (h : (m.workers g).endFlag ≠ 0) : RunStep g m (.top []) .store .tau
  | whenDone (h : (m.workers g).endFlag = 0) (hd : (m.workers g).endWhenDone = true) :
      RunStep g m (.top []) .isEmpty .tau
  | goesOn (h : (m.workers g).endFlag = 0) (hd : (m.workers g).endWhenDone = false) :
      RunStep g m (.top []) .recv .tau
  | tryRecv {f x : Task} {fs xs : List Task} (h : (m.workers g).channel = x :: xs) :
      RunStep g m (.top (f :: fs)) (.top (f :: fs ++ [x])) (.recv g)
  | received {f : Task} {fs : List Task} (h : (m.workers g).channel = []) :
      RunStep g m (.top (f :: fs)) (.retain [] (f :: fs)) .tau
  | done (h : (m.workers g).channel = []) : RunStep g m .isEmpty .store .tau
  | notDone (h : (m.workers g).channel ≠ []) : RunStep g m .isEmpty .recv .tau
  | recv {x : Task} {xs : List Task} (h : (m.workers g).channel = x :: xs) :
      RunStep g m .recv (.retain [] [x]) (.recv g)
  | disconnected (h : (m.workers g).channel = []) (hs : (m.workers g).sender = false) :
      RunStep g m .recv .store .tau
  | retained {kept : List Task} : RunStep g m (.retain kept []) (.check kept) .tau
  | poll {x : Task} {kept todo : List Task} :
      RunStep g m (.retain kept (x :: todo)) (.poll x (.code none) kept todo)
        (.poll (.task g x.id))
  | user {x : Task} {call call' : CallPc} {kept todo : List Task} {o : Op P}
      (h : CallStep (.run g) m call call' o) :
      RunStep g m (.poll x call kept todo) (.poll x call' kept todo) o
  | pending {x : Task} {last : Option Outcome} {kept todo : List Task} :
      RunStep g m (.poll x (.code last) kept todo) (.pendingArm x kept todo) .tau
  | ready {x : Task} {last : Option Outcome} {kept todo : List Task} :
      RunStep g m (.poll x (.code last) kept todo) (.readyArm x kept todo) .tau
  | panics {x : Task} {last : Option Outcome} {q : Payload P} {kept todo : List Task} :
      RunStep g m (.poll x (.code last) kept todo) (.errArm x q kept todo) .tau
  | writes {x : Task} {last : Option Outcome} {st : TaskState P} {kept todo : List Task} :
      RunStep g m (.poll x (.code last) kept todo) (.poll x (.code last) kept todo)
        (.replace x.id st)
  | cancelled {x : Task} {kept todo : List Task} (h : m.state x.id = .cancelled) :
      RunStep g m (.pendingArm x kept todo) (.settle x (.begin x) kept todo) .tau
  | keep {x : Task} {kept todo : List Task} (h : m.state x.id ≠ .cancelled) :
      RunStep g m (.pendingArm x kept todo) (.retain (kept ++ [x]) todo) .tau
  | errArm {x : Task} {q : Payload P} {kept todo : List Task} :
      RunStep g m (.errArm x q kept todo) (.settle x (.begin x) kept todo)
        (.replace x.id (.panicked q))
  | readyArm {x : Task} {kept todo : List Task} :
      RunStep g m (.readyArm x kept todo) (.settle x (.begin x) kept todo) (.fetchAdd g)
  | signalSem {x : Task} {t : SemId} {ts : List SemId} {kept todo : List Task} :
      RunStep g m (.settle x (.signals (t :: ts)) kept todo) (.settle x (.signals ts) kept todo)
        (.signalSem t)
  | wakeSignal {x : Task} {kept todo : List Task} :
      RunStep g m (.settle x (.signals []) kept todo) (.settle x .wakeQueue kept todo)
        (.wakeSignal g x.id)
  | wakeQueue {x : Task} {kept todo : List Task} :
      RunStep g m (.settle x .wakeQueue kept todo) (.retain kept todo) .wakeQueue
  | empty : RunStep g m (.check []) (.top []) .tau
  | sleep {f : Task} {fs : List Task} (h : (m.workers g).channel = []) :
      RunStep g m (.check (f :: fs)) (.wait (f :: fs)) .tau
  | more {f : Task} {fs : List Task} (h : (m.workers g).channel ≠ []) :
      RunStep g m (.check (f :: fs)) (.top (f :: fs)) .tau
  | wake {futures : List Task} (h : (m.workers g).signal.ready = true) :
      RunStep g m (.wait futures) (.top futures) (.waitSignal g)
  | store : RunStep g m .store .drop (.storeEnd g 2)
  | drop : RunStep g m .drop .returned (.dropReceiver g)

/-- The steps of `await_sync`. -/
inductive AwaitStep (f : AwaitId) (m : Shared P) : AwaitPc → AwaitPc → Op P → Prop where
  | start (h : (m.awaits f).called = true) : AwaitStep f m .idle .top .tau
  | poll : AwaitStep f m .top (.poll (.code none)) (.poll (.awaited f))
  | user {call call' : CallPc} {o : Op P} (h : CallStep (.await f) m call call' o) :
      AwaitStep f m (.poll call) (.poll call') o
  | pending {last : Option Outcome} : AwaitStep f m (.poll (.code last)) .wait .tau
  | ends {last : Option Outcome} :
      AwaitStep f m (.poll (.code last)) .returned (.returnAwait f)
  | wake (h : (m.awaits f).signal.ready = true) : AwaitStep f m .wait .top (.waitAwait f)

section

variable {i : Tid} {m : Shared P} {o : Op P}

theorem callNext_step {c : UserInput} {p p' : CallPc} (h : callNext i c p m = some (p', o)) :
    CallStep i m p p' o := by
  cases p with
  | code last =>
      cases c with
      | proceed => cases h
      | call k =>
          simp only [callNext] at h
          split at h
          case h_1 hk =>
            cases h
            exact .call hk
          case h_2 x hk =>
            split at h
            case isTrue ho =>
              cases h
              exact .move hk (Option.isNone_iff_eq_none.mp ho)
            case isFalse => cases h
      | newWorker n =>
          cases h
          exact .newWorker
      | send g x =>
          simp only [callNext] at h
          split at h
          case isTrue ho =>
            cases h
            rw [Bool.and_eq_true, Option.isNone_iff_eq_none] at ho
            exact .dispatch ho.1 ho.2
          case isFalse => cases h
      | dropSender g =>
          simp only [callNext] at h
          split at h
          case isTrue hg =>
            cases h
            exact .dropSender hg
          case isFalse => cases h
      | await f =>
          simp only [callNext] at h
          split at h
          all_goals cases h
          exact .await
      | wake u =>
          cases h
          exact .wake
      | cancel t =>
          cases h
          exact .cancel
  | lock k =>
      simp only [callNext, Option.isSome_iff_ne_none, ne_eq, ite_not] at h
      repeat' split at h
      all_goals cases h
      case isTrue.isTrue.isTrue.refl hw hk hr => exact .writeLock hw hr hk
      case isTrue.isFalse.refl hw hk => exact .readLock hw (Bool.eq_false_iff.mpr hk)
  | check k =>
      cases k with
      | registerMainThread x endWhenDone =>
          simp only [callNext] at h
          split at h
          all_goals cases h
          case isTrue.refl hf => exact .register hf
          case isFalse.refl => exact .answer
      | submitToMainThread x =>
          simp only [callNext] at h
          split at h
          case h_1 =>
            cases h
            exact .answer
          case h_2 g hg =>
            split at h
            all_goals cases h
            case isTrue.refl => exact .answer
            case isFalse.refl he => exact .submit hg (by simpa [WorkerThread.ended] using he)
      | endMainThread =>
          simp only [callNext] at h
          split at h
          case h_1 =>
            cases h
            exact .answer
          case h_2 g hg =>
            split at h
            all_goals cases h
            case isTrue.refl he =>
              exact .ended hg (Nat.ne_of_gt (by simpa [WorkerThread.ended] using he))
            case isFalse.refl he => exact .endMain hg (by simpa [WorkerThread.ended] using he)
      | mainThreadEnded =>
          cases h
          exact .answer
      | mainThreadFinished =>
          cases h
          exact .answer
  | replaceWorker x endWhenDone =>
      cases h
      exact .replaceWorker
  | send k g x p =>
      cases p with
      | send =>
          simp only [callNext] at h
          split at h
          all_goals cases h
          case isTrue.refl hr => exact .send hr
          case isFalse.refl hr => exact .fail (Bool.eq_false_iff.mpr hr)
      | fetchSub =>
          cases h
          exact .fetchSub
      | wake =>
          cases h
          exact .wakeSend
  | storeEnd g =>
      cases h
      exact .storeEnd
  | unlock r note =>
      cases h
      exact .unlock
  | dropWorker g =>
      cases h
      exact .dropWorker
  | callRun g =>
      cases h
      exact .callRun
  | running g =>
      simp only [callNext] at h
      split at h
      all_goals cases h
      case isFalse.refl hr => exact .ran (Bool.eq_false_iff.mpr hr)
  | awaiting f =>
      simp only [callNext] at h
      split at h
      all_goals cases h
      exact .awaited

theorem Shared.isEmpty_iff {g : WorkerId} : m.isEmpty g = true ↔ (m.workers g).channel = [] :=
  List.isEmpty_iff

theorem runNext_step {g : WorkerId} {c : PollInput P} {p p' : RunPc P}
    (h : runNext g c p m = some (p', o)) : RunStep g m p p' o := by
  cases p with
  | idle =>
      simp only [runNext] at h
      split at h
      all_goals cases h
      case isTrue.refl hs => exact .start hs
  | top futures =>
      cases futures with
      | nil =>
          simp only [runNext] at h
          repeat' split at h
          all_goals cases h
          case isTrue.refl he => exact .ended (Nat.ne_of_gt he)
          case isFalse.isTrue.refl he hd => exact .whenDone (Nat.eq_zero_of_not_pos he) hd
          case isFalse.isFalse.refl he hd =>
            exact .goesOn (Nat.eq_zero_of_not_pos he) (Bool.eq_false_iff.mpr hd)
      | cons f fs =>
          simp only [runNext] at h
          split at h
          all_goals cases h
          case h_1.refl hc => exact .tryRecv hc
          case h_2.refl hc => exact .received hc
  | isEmpty =>
      simp only [runNext, Shared.isEmpty_iff] at h
      split at h
      all_goals cases h
      case isTrue.refl hc => exact .done hc
      case isFalse.refl hc => exact .notDone hc
  | recv =>
      simp only [runNext] at h
      split at h
      case h_1 hc =>
        cases h
        exact .recv hc
      case h_2 hc =>
        split at h
        all_goals cases h
        case isFalse.refl hs => exact .disconnected hc (Bool.eq_false_iff.mpr hs)
  | retain kept todo =>
      cases todo with
      | nil =>
          cases h
          exact .retained
      | cons x todo =>
          cases h
          exact .poll
  | poll x call kept todo =>
      cases c with
      | user u =>
          obtain ⟨⟨call', o'⟩, hn, he⟩ := Option.map_eq_some_iff.mp h
          cases he
          exact .user (callNext_step hn)
      | pending =>
          cases call
          all_goals cases h
          exact .pending
      | ready =>
          cases call
          all_goals cases h
          exact .ready
      | panics q =>
          cases call
          all_goals cases h
          exact .panics
      | writes st =>
          cases call
          all_goals cases h
          exact .writes
  | pendingArm x kept todo =>
      simp only [runNext] at h
      split at h
      all_goals cases h
      case isTrue.refl hc => exact .cancelled (TaskState.beq_cancelled.mp hc)
      case isFalse.refl hc => exact .keep fun he => hc (TaskState.beq_cancelled.mpr he)
  | errArm x q kept todo =>
      cases h
      exact .errArm
  | readyArm x kept todo =>
      cases h
      exact .readyArm
  | settle x sp kept todo =>
      cases sp with
      | signals ts =>
          cases ts with
          | nil =>
              cases h
              exact .wakeSignal
          | cons t ts =>
              cases h
              exact .signalSem
      | wakeQueue =>
          cases h
          exact .wakeQueue
  | check futures =>
      cases futures with
      | nil =>
          cases h
          exact .empty
      | cons f fs =>
          simp only [runNext, Shared.isEmpty_iff] at h
          split at h
          all_goals cases h
          case isTrue.refl hc => exact .sleep hc
          case isFalse.refl hc => exact .more hc
  | wait futures =>
      obtain ⟨r, hr, he⟩ := Option.map_eq_some_iff.mp h
      cases he
      exact .wake (Signal.wait?_eq_some.mp hr).1
  | store =>
      cases h
      exact .store
  | drop =>
      cases h
      exact .drop
  | returned => cases h

theorem awaitNext_step {f : AwaitId} {c : PollInput P} {p p' : AwaitPc}
    (h : awaitNext f c p m = some (p', o)) : AwaitStep f m p p' o := by
  cases p with
  | idle =>
      simp only [awaitNext] at h
      split at h
      all_goals cases h
      case isTrue.refl hc => exact .start hc
  | top =>
      cases h
      exact .poll
  | poll call =>
      cases c with
      | user u =>
          obtain ⟨⟨call', o'⟩, hn, he⟩ := Option.map_eq_some_iff.mp h
          cases he
          exact .user (callNext_step hn)
      | writes st => cases h
      | pending =>
          cases call
          all_goals cases h
          exact .pending
      | ready =>
          cases call
          all_goals cases h
          exact .ends
      | panics q =>
          cases call
          all_goals cases h
          exact .ends
  | wait =>
      obtain ⟨r, hr, he⟩ := Option.map_eq_some_iff.mp h
      cases he
      exact .wake (Signal.wait?_eq_some.mp hr).1
  | returned => cases h

end

/-- The steps of a thread. -/
def Tid.Step (m : Shared P) : (i : Tid) → Tid.Pc P i → Tid.Pc P i → Op P → Prop
  | .user i => CallStep (.user i) m
  | .run g => RunStep g m
  | .await f => AwaitStep f m

theorem next_step {i : Tid} {c : Tid.Input P i} {p p' : Tid.Pc P i} {m : Shared P} {o : Op P}
    (h : (main P).next i c p m = some (p', o)) : i.Step m p p' o := by
  cases i with
  | user i => exact callNext_step h
  | run g => exact runNext_step h
  | await f => exact awaitNext_step h

theorem step_cases {s s' : (main P).State} {a : (main P).Action} (h : s.step a = some s') :
    ∃ q o, a.tid.Step s.mem (s.pc a.tid) q o ∧ s' = s.move a.tid q o := by
  obtain ⟨q, o, hn, rfl⟩ := System.State.step_cases h
  exact ⟨q, o, next_step hn, rfl⟩

end MVSync.Main
