import MVSync.Pool.Future

/-!
# The callers

What the threads of the user do: `Queue::submit` and its variants, `run` and
`run_all` when the queue has no threads, `cancel`, and the waits of handles,
controllers and fences.  A caller is idle between two calls.  A task body that
calls the library is such a thread too.

`run` is one pass of `run_all` over a single task, which drops the task when it
cannot be run.  The local variables of `run_all` are a `Pass`.  Its counter
`count` is declared inside the loop, so every pass starts it at `0`.
-/

namespace MVSync

variable {V P : Type}

/-- The local variables of `run_all`, or of `run` when `all` is `false`. -/
structure Pass where
  all : Bool
  todo : List Task
  newTasks : List Task
  ran : Bool
  count : Nat
deriving DecidableEq, Repr

/-- The start of a pass of the outer loop. -/
def Pass.begin (all : Bool) (tasks : List Task) : Pass := ⟨all, tasks, [], false, 0⟩

/-- An arm that settled the task at hand. -/
def Pass.progress (p : Pass) : Pass := { p with ran := true, count := 0 }

/-- Where a caller is. -/
inductive CallerPc (V P : Type) where
  | idle
  /-- `Queue::submit` and its variants.  `sent` says that a task was sent. -/
  | sending (sent : Bool) (xs : List Task)
  /-- `Signal::wait`, of a handle, a controller or a fence. -/
  | waitSignal (t : TaskId) (k : Taker)
  /-- `Signal::wait_async`, between two polls of its `SignalFuture`. -/
  | pollSignal (t : TaskId) (k : Taker) (started : Bool)
  /-- `TaskHandle::wait`, at its `state.write().unwrap().take()`. -/
  | takeState (t : TaskId)
  /-- `TaskHandle::wait`, at its `inner.write().unwrap().take().unwrap()`. -/
  | takeBuffer (t : TaskId)
  /-- The head of the inner loop of `run_all`. -/
  | run (p : Pass)
  | isPanicked (x : Task) (p : Pass)
  | getPanic (x : Task) (p : Pass)
  | isCancelled (x : Task) (p : Pass)
  | isCancelledSelf (x : Task) (p : Pass)
  | canExecute (x : Task) (ss : List SemId) (p : Pass)
  | replace (x : Task) (st : TaskState P) (f : Finish) (site : Site) (p : Pass)
  /-- `await_sync`, before its loop. -/
  | newSignal (x : Task) (p : Pass)
  | poll (x : Task) (pc : PollPc V P) (p : Pass)
  /-- `await_sync`, at its `signal.wait()`. -/
  | block (x : Task) (v : Option V) (p : Pass)
  | settle (x : Task) (site : Site) (sp : SettlePc) (p : Pass)
  /-- A panic unwinds. -/
  | unwind (q : Payload P)
  | panicked (q : Payload P)
deriving DecidableEq, Repr

/-- What the environment chooses for a caller: the next call when it is idle,
and whether a poll ends pending when it runs user code. -/
inductive CallerInput where
  | proceed
  | pends
  | submit (t : TaskId)
  | submitOn (t : TaskId) (thread : Label)
  | submitAll (ts : List TaskId)
  | submitAllOn (ts : List TaskId) (thread : Label)
  | cancel (t : TaskId)
  | handleWait (t : TaskId)
  | handleWaitAsync (t : TaskId)
  | wait (t : TaskId)
  | waitAsync (t : TaskId)
  | fenceWait (f : FenceId)
  | fenceWaitAsync (f : FenceId)
  /-- A waker of a worker is called. -/
  | wakeWorker (w : WorkerId)
  /-- A waker of an `await_sync` is called. -/
  | wakeCaller (e : CallerId)
  /-- The last reference to the queue is dropped. -/
  | dropQueue
deriving DecidableEq, Repr

/-- The tasks can be moved into a submit call. -/
def Shared.Submittable (m : Shared V P) (ts : List TaskId) : Prop :=
  m.queueAlive = true ∧ ts.Nodup ∧ ∀ t ∈ ts, (m.cell t).owner = .user

instance (m : Shared V P) (ts : List TaskId) : Decidable (m.Submittable ts) :=
  inferInstanceAs (Decidable (_ ∧ _ ∧ _))

/-- The handle of a task can be moved into a wait. -/
def Shared.Waitable (prog : Program V P) (m : Shared V P) (t : TaskId) : Prop :=
  prog.succ t = none ∧ (m.cell t).handle = none

instance (prog : Program V P) (m : Shared V P) (t : TaskId) : Decidable (m.Waitable prog t) :=
  inferInstanceAs (Decidable (_ ∧ _))

/-- The head of a submit call: with no threads the tasks are run inline as they
are, otherwise `prefer` is applied to each and they are sent. -/
def submitNext (cfg : Specs) (prog : Program V P) (e : CallerId) (all : Bool)
    (prefer : Task → Task) (ts : List TaskId) (m : Shared V P) :
    Option (CallerPc V P × Op V P) :=
  if m.Submittable ts then
    if cfg.threadCount = 0 then some (.run (.begin all (ts.map prog.task)), .beginRun e ts)
    else some (.sending false (ts.map fun t => prefer (prog.task t)), .beginSubmit e ts)
  else none

/-- A call of an idle caller. -/
def callNext (cfg : Specs) (prog : Program V P) (e : CallerId) :
    CallerInput → Shared V P → Option (CallerPc V P × Op V P)
  | .submit t, m => submitNext cfg prog e false id [t] m
  | .submitOn t l, m => submitNext cfg prog e false (·.setPreferredThread l) [t] m
  | .submitAll ts, m => submitNext cfg prog e true id ts m
  | .submitAllOn ts l, m => submitNext cfg prog e true (·.setPreferredThread l) ts m
  | .cancel t, _ => some (.idle, .cancel t)
  | .handleWait t, m =>
      if m.Waitable prog t then some (.waitSignal t .handle, .moveHandle t e) else none
  | .handleWaitAsync t, m =>
      if m.Waitable prog t then some (.pollSignal t .handle false, .moveHandle t e) else none
  | .wait t, _ => some (.waitSignal t .observer, .tau)
  | .waitAsync t, _ => some (.pollSignal t .observer false, .tau)
  | .fenceWait f, _ =>
      match prog.fence f with
      | some t => some (.waitSignal t .observer, .tau)
      | none => some (.unwind (.message "Checking unbound fence!"), .tau)
  | .fenceWaitAsync f, _ =>
      match prog.fence f with
      | some t => some (.pollSignal t .observer false, .tau)
      | none => some (.unwind (.message "Checking unbound fence!"), .tau)
  | .wakeWorker w, _ => some (.idle, .wakeWorker w)
  | .wakeCaller e', _ => some (.idle, .wakeCaller e')
  | .dropQueue, m =>
      if m.queueAlive = true ∧ m.submits = 0 then some (.idle, .dropQueue) else none
  | .proceed, _ | .pends, _ => none

/-- What follows the wake-up of a wait. -/
def Taker.resume (k : Taker) (t : TaskId) : CallerPc V P :=
  match k with
  | .handle => .takeState t
  | _ => .idle

/-- The end of a pass of `run_all`, or of `run`. -/
def Pass.endNext (e : CallerId) (p : Pass) : CallerPc V P × Op V P :=
  if p.all then
    if p.ran = false ∧ 5 ≤ p.count + 1 then (.idle, .dropCaller e)
    else (.run (.begin true p.newTasks), .tau)
  else (.idle, .tau)

/-- A task that none of the three tests lets through. -/
def Pass.notRun (p : Pass) (x : Task) : CallerPc V P × Op V P :=
  if p.all then (.run { p with newTasks := p.newTasks ++ [x] }, .tau)
  else (.run p, .dropTask x.id)

/-- One step of a caller. -/
def callerNext (cfg : Specs) (prog : Program V P) (e : CallerId) (c : CallerInput) :
    CallerPc V P → Shared V P → Option (CallerPc V P × Op V P)
  | .idle, m => callNext cfg prog e c m
  | .sending _ [], _ => some (.idle, .endSubmit)
  | .sending _ (x :: xs), m =>
      if m.dispatcherAlive then some (.sending true xs, .send x)
      -- the text of `expect`, and the `Debug` of the error
      else some (.panicked (.message "Failed to submit task!: \"SendError(..)\""), .failSubmit e)
  | .waitSignal t k, m => (m.cell t).signal.wait?.map fun _ => (k.resume t, .waitSignal t k)
  | .pollSignal t k started, m =>
      match (m.cell t).signal.poll started e with
      | (true, _, _) => some (k.resume t, .tau)
      | (false, _, started') => some (.pollSignal t k started', .pollSignal t e started)
  | .takeState t, m =>
      match (m.cell t).state.take with
      | .ready => some (.takeBuffer t, .tau)
      | .panicked q => some (.idle, .takeResult t .handle (.panicked q))
      | .cancelled => some (.idle, .takeResult t .handle .cancelled)
      | .pending => some (.unwind (.message "Function finished but is still pending!"), .tau)
  | .takeBuffer t, m =>
      match (m.cell t).buffer with
      | some v => some (.idle, .takeBuffer t .handle v)
      | none => some (.unwind (.message "called `Option::unwrap()` on a `None` value"), .tau)
  | .run p, _ =>
      match p.todo with
      | [] => some (p.endNext e)
      | x :: todo => some (.isPanicked x { p with todo := todo }, .tau)
  | .isPanicked x p, m =>
      if m.isPanicked x then some (.getPanic x p, .tau) else some (.isCancelled x p, .tau)
  | .getPanic x p, m =>
      match (m.predState x).take with
      | .panicked q => some (.replace x (.panicked q) .panicked .inlinePanicked p, .tau)
      | _ =>
          some (.unwind (.message "Tired to get the panic value of non-panicking function!"), .tau)
  | .isCancelled x p, m =>
      if m.predState x == .cancelled then
        some (.replace x .cancelled .cancelled .inlineCancelled p, .tau)
      else some (.isCancelledSelf x p, .tau)
  | .isCancelledSelf x p, m =>
      if (m.cell x.id).state == .cancelled then
        some (.replace x .cancelled .cancelled .inlineCancelled p, .tau)
      else some (.canExecute x x.wait p, .tau)
  | .canExecute x (s :: ss) p, m =>
      if m.sem s then some (.canExecute x ss p, .tau) else some (p.notRun x)
  | .canExecute x [] p, m =>
      if m.predState x != .pending then some (.newSignal x p, .pass x.id) else some (p.notRun x)
  | .replace x st f site p, _ => some (.settle x site (.begin x) p, .replace x.id st f)
  | .newSignal x p, _ => some (.poll x .start p, .newCallerSignal e)
  | .poll x pc p, m =>
      match pollNext prog x (c == .pends) pc m with
      | none => none
      | some (.more pc', o) => some (.poll x pc' p, o)
      | some (.pending v, o) => some (.block x v p, o)
      | some (.err q, o) => some (.unwind q, o)
      | some (.ready, o) => some (.settle x .inlineReady (.begin x) p, o)
  | .block x v p, m =>
      (m.callerSignal e).wait?.map fun _ => (.poll x (.body v) p, .waitCallerSignal e)
  | .settle x site sp p, _ =>
      match settleNext x site sp with
      | (some sp', o) => some (.settle x site sp' p, o)
      | (none, o) => some (.run p.progress, o)
  | .unwind q, _ => some (.panicked q, .dropCaller e)
  | .panicked _, _ => none

/-! ## The steps of a caller -/

/-- What a submit call submits: whether it is a call for many tasks, what it
does to each of them first, and the tasks. -/
def CallerInput.submits : CallerInput → Option (Bool × (Task → Task) × List TaskId)
  | .submit t => some (false, id, [t])
  | .submitOn t l => some (false, (·.setPreferredThread l), [t])
  | .submitAll ts => some (true, id, ts)
  | .submitAllOn ts l => some (true, (·.setPreferredThread l), ts)
  | _ => none

/-- The steps of a thread of the user. -/
inductive CallerStep (cfg : Specs) (prog : Program V P) (e : CallerId) (c : CallerInput)
    (m : Shared V P) : CallerPc V P → CallerPc V P → Op V P → Prop where
  | inline {all : Bool} {f : Task → Task} {ts : List TaskId}
      (hc : c.submits = some (all, f, ts)) (hs : m.Submittable ts) (hn : cfg.threadCount = 0) :
      CallerStep cfg prog e c m .idle (.run (.begin all (ts.map prog.task))) (.beginRun e ts)
  | submit {all : Bool} {f : Task → Task} {ts : List TaskId}
      (hc : c.submits = some (all, f, ts)) (hs : m.Submittable ts) (hn : cfg.threadCount ≠ 0) :
      CallerStep cfg prog e c m .idle (.sending false (ts.map fun t => f (prog.task t)))
        (.beginSubmit e ts)
  | cancel {t : TaskId} (hc : c = .cancel t) :
      CallerStep cfg prog e c m .idle .idle (.cancel t)
  | handleWait {t : TaskId} (hw : m.Waitable prog t) :
      CallerStep cfg prog e c m .idle (.waitSignal t .handle) (.moveHandle t e)
  | handleWaitAsync {t : TaskId} (hw : m.Waitable prog t) :
      CallerStep cfg prog e c m .idle (.pollSignal t .handle false) (.moveHandle t e)
  | wait {t : TaskId} : CallerStep cfg prog e c m .idle (.waitSignal t .observer) .tau
  | waitAsync {t : TaskId} : CallerStep cfg prog e c m .idle (.pollSignal t .observer false) .tau
  | unbound :
      CallerStep cfg prog e c m .idle (.unwind (.message "Checking unbound fence!")) .tau
  | wakeWorker {w : WorkerId} : CallerStep cfg prog e c m .idle .idle (.wakeWorker w)
  | wakeCaller {e' : CallerId} : CallerStep cfg prog e c m .idle .idle (.wakeCaller e')
  | dropQueue (hq : m.queueAlive = true ∧ m.submits = 0) :
      CallerStep cfg prog e c m .idle .idle .dropQueue
  | endSubmit {sent : Bool} : CallerStep cfg prog e c m (.sending sent []) .idle .endSubmit
  | send {sent : Bool} {x : Task} {xs : List Task} (hd : m.dispatcherAlive = true) :
      CallerStep cfg prog e c m (.sending sent (x :: xs)) (.sending true xs) (.send x)
  | failSubmit {sent : Bool} {x : Task} {xs : List Task} (hd : m.dispatcherAlive = false) :
      CallerStep cfg prog e c m (.sending sent (x :: xs))
        (.panicked (.message "Failed to submit task!: \"SendError(..)\"")) (.failSubmit e)
  | wake {t : TaskId} {k : Taker} (hr : (m.cell t).signal.ready = true) :
      CallerStep cfg prog e c m (.waitSignal t k) (k.resume t) (.waitSignal t k)
  | polled {t : TaskId} {k : Taker} {started : Bool} (hr : (m.cell t).signal.ready = true) :
      CallerStep cfg prog e c m (.pollSignal t k started) (k.resume t) .tau
  | notPolled {t : TaskId} {k : Taker} {started started' : Bool} :
      CallerStep cfg prog e c m (.pollSignal t k started) (.pollSignal t k started')
        (.pollSignal t e started)
  | takeReady {t : TaskId} (hs : (m.cell t).state = .ready) :
      CallerStep cfg prog e c m (.takeState t) (.takeBuffer t) .tau
  | takePanicked {t : TaskId} {q : Payload P} (hs : (m.cell t).state.take = .panicked q) :
      CallerStep cfg prog e c m (.takeState t) .idle (.takeResult t .handle (.panicked q))
  | takeCancelled {t : TaskId} (hs : (m.cell t).state = .cancelled) :
      CallerStep cfg prog e c m (.takeState t) .idle (.takeResult t .handle .cancelled)
  | takePending {t : TaskId} (hs : (m.cell t).state = .pending) :
      CallerStep cfg prog e c m (.takeState t)
        (.unwind (.message "Function finished but is still pending!")) .tau
  | takeBuffer {t : TaskId} {v : V} (hb : (m.cell t).buffer = some v) :
      CallerStep cfg prog e c m (.takeBuffer t) .idle (.takeBuffer t .handle v)
  | takeNone {t : TaskId} (hb : (m.cell t).buffer = none) :
      CallerStep cfg prog e c m (.takeBuffer t)
        (.unwind (.message "called `Option::unwrap()` on a `None` value")) .tau
  | next {p : Pass} {x : Task} {todo : List Task} (hp : p.todo = x :: todo) :
      CallerStep cfg prog e c m (.run p) (.isPanicked x { p with todo := todo }) .tau
  | endRun {p : Pass} (hp : p.todo = []) (ha : p.all = false) :
      CallerStep cfg prog e c m (.run p) .idle .tau
  | again {p : Pass} (hp : p.todo = []) (ha : p.all = true) :
      CallerStep cfg prog e c m (.run p) (.run (.begin true p.newTasks)) .tau
  | giveUp {p : Pass} (hp : p.todo = []) (ha : p.all = true)
      (hn : p.ran = false ∧ 5 ≤ p.count + 1) :
      CallerStep cfg prog e c m (.run p) .idle (.dropCaller e)
  | isPanicked {x : Task} {p : Pass} (h : m.isPanicked x = true) :
      CallerStep cfg prog e c m (.isPanicked x p) (.getPanic x p) .tau
  | notPanicked {x : Task} {p : Pass} (h : m.isPanicked x = false) :
      CallerStep cfg prog e c m (.isPanicked x p) (.isCancelled x p) .tau
  | getPanic {x : Task} {q : Payload P} {p : Pass} (h : (m.predState x).take = .panicked q) :
      CallerStep cfg prog e c m (.getPanic x p)
        (.replace x (.panicked q) .panicked .inlinePanicked p) .tau
  | panic {x : Task} {p : Pass} :
      CallerStep cfg prog e c m (.getPanic x p)
        (.unwind (.message "Tired to get the panic value of non-panicking function!")) .tau
  | predCancelled {x : Task} {p : Pass} (h : m.predState x = .cancelled) :
      CallerStep cfg prog e c m (.isCancelled x p)
        (.replace x .cancelled .cancelled .inlineCancelled p) .tau
  | predNotCancelled {x : Task} {p : Pass} (h : m.predState x ≠ .cancelled) :
      CallerStep cfg prog e c m (.isCancelled x p) (.isCancelledSelf x p) .tau
  | selfCancelled {x : Task} {p : Pass} (h : (m.cell x.id).state = .cancelled) :
      CallerStep cfg prog e c m (.isCancelledSelf x p)
        (.replace x .cancelled .cancelled .inlineCancelled p) .tau
  | selfNotCancelled {x : Task} {p : Pass} (h : (m.cell x.id).state ≠ .cancelled) :
      CallerStep cfg prog e c m (.isCancelledSelf x p) (.canExecute x x.wait p) .tau
  | signalled {x : Task} {s : SemId} {ss : List SemId} {p : Pass} (h : m.sem s = true) :
      CallerStep cfg prog e c m (.canExecute x (s :: ss) p) (.canExecute x ss p) .tau
  | unsignalledKept {x : Task} {s : SemId} {ss : List SemId} {p : Pass} (h : m.sem s = false)
      (ha : p.all = true) :
      CallerStep cfg prog e c m (.canExecute x (s :: ss) p)
        (.run { p with newTasks := p.newTasks ++ [x] }) .tau
  | unsignalledDropped {x : Task} {s : SemId} {ss : List SemId} {p : Pass} (h : m.sem s = false)
      (ha : p.all = false) :
      CallerStep cfg prog e c m (.canExecute x (s :: ss) p) (.run p) (.dropTask x.id)
  | pass {x : Task} {p : Pass} (h : m.predState x ≠ .pending) :
      CallerStep cfg prog e c m (.canExecute x [] p) (.newSignal x p) (.pass x.id)
  | predPendingKept {x : Task} {p : Pass} (h : m.predState x = .pending) (ha : p.all = true) :
      CallerStep cfg prog e c m (.canExecute x [] p)
        (.run { p with newTasks := p.newTasks ++ [x] }) .tau
  | predPendingDropped {x : Task} {p : Pass} (h : m.predState x = .pending)
      (ha : p.all = false) :
      CallerStep cfg prog e c m (.canExecute x [] p) (.run p) (.dropTask x.id)
  | replace {x : Task} {st : TaskState P} {f : Finish} {site : Site} {p : Pass} :
      CallerStep cfg prog e c m (.replace x st f site p) (.settle x site (.begin x) p)
        (.replace x.id st f)
  | newSignal {x : Task} {p : Pass} :
      CallerStep cfg prog e c m (.newSignal x p) (.poll x .start p) (.newCallerSignal e)
  | more {x : Task} {pc pc' : PollPc V P} {p : Pass} {o : Op V P}
      (h : pollNext prog x (c == .pends) pc m = some (.more pc', o)) :
      CallerStep cfg prog e c m (.poll x pc p) (.poll x pc' p) o
  | pending {x : Task} {pc : PollPc V P} {v : Option V} {p : Pass} {o : Op V P}
      (h : pollNext prog x (c == .pends) pc m = some (.pending v, o)) :
      CallerStep cfg prog e c m (.poll x pc p) (.block x v p) o
  | err {x : Task} {pc : PollPc V P} {q : Payload P} {p : Pass} {o : Op V P}
      (h : pollNext prog x (c == .pends) pc m = some (.err q, o)) :
      CallerStep cfg prog e c m (.poll x pc p) (.unwind q) o
  | ready {x : Task} {pc : PollPc V P} {p : Pass} {o : Op V P}
      (h : pollNext prog x (c == .pends) pc m = some (.ready, o)) :
      CallerStep cfg prog e c m (.poll x pc p) (.settle x .inlineReady (.begin x) p) o
  | unblock {x : Task} {v : Option V} {p : Pass} (hr : (m.callerSignal e).ready = true) :
      CallerStep cfg prog e c m (.block x v p) (.poll x (.body v) p) (.waitCallerSignal e)
  | settle {x : Task} {site : Site} {sp sp' : SettlePc} {p : Pass} {o : Op V P}
      (h : settleNext x site sp = (some sp', o)) :
      CallerStep cfg prog e c m (.settle x site sp p) (.settle x site sp' p) o
  | settled {x : Task} {site : Site} {sp : SettlePc} {p : Pass} {o : Op V P}
      (h : settleNext x site sp = (none, o)) :
      CallerStep cfg prog e c m (.settle x site sp p) (.run p.progress) o
  | unwind {q : Payload P} : CallerStep cfg prog e c m (.unwind q) (.panicked q) (.dropCaller e)

section

variable {cfg : Specs} {prog : Program V P} {e : CallerId} {c : CallerInput} {m : Shared V P}
  {p' : CallerPc V P} {o : Op V P}

theorem submitNext_step {all : Bool} {f : Task → Task} {ts : List TaskId}
    (hc : c.submits = some (all, f, ts)) (h : submitNext cfg prog e all f ts m = some (p', o)) :
    CallerStep cfg prog e c m .idle p' o := by
  unfold submitNext at h
  split at h
  case isFalse => cases h
  case isTrue hs =>
    split at h
    case isTrue hn =>
      cases h
      exact .inline hc hs hn
    case isFalse hn =>
      cases h
      exact .submit hc hs hn

theorem callNext_step (h : callNext cfg prog e c m = some (p', o)) :
    CallerStep cfg prog e c m .idle p' o := by
  cases c with
  | submit t => exact submitNext_step rfl h
  | submitOn t l => exact submitNext_step rfl h
  | submitAll ts => exact submitNext_step rfl h
  | submitAllOn ts l => exact submitNext_step rfl h
  | cancel t =>
      cases h
      exact .cancel rfl
  | handleWait t =>
      simp only [callNext] at h
      split at h
      case isTrue hw =>
        cases h
        exact .handleWait hw
      case isFalse => cases h
  | handleWaitAsync t =>
      simp only [callNext] at h
      split at h
      case isTrue hw =>
        cases h
        exact .handleWaitAsync hw
      case isFalse => cases h
  | wait t =>
      cases h
      exact .wait
  | waitAsync t =>
      cases h
      exact .waitAsync
  | fenceWait f =>
      simp only [callNext] at h
      split at h
      · cases h
        exact .wait
      · cases h
        exact .unbound
  | fenceWaitAsync f =>
      simp only [callNext] at h
      split at h
      · cases h
        exact .waitAsync
      · cases h
        exact .unbound
  | wakeWorker w =>
      cases h
      exact .wakeWorker
  | wakeCaller e' =>
      cases h
      exact .wakeCaller
  | dropQueue =>
      simp only [callNext] at h
      split at h
      case isTrue hq =>
        cases h
        exact .dropQueue hq
      case isFalse => cases h
  | proceed => cases h
  | pends => cases h

theorem callerNext_step {p : CallerPc V P} (h : callerNext cfg prog e c p m = some (p', o)) :
    CallerStep cfg prog e c m p p' o := by
  cases p with
  | idle => exact callNext_step h
  | sending sent xs =>
      cases xs with
      | nil =>
          cases h
          exact .endSubmit
      | cons x xs =>
          simp only [callerNext] at h
          split at h
          case isTrue hd =>
            cases h
            exact .send hd
          case isFalse hd =>
            cases h
            exact .failSubmit (Bool.eq_false_iff.mpr hd)
  | waitSignal t k =>
      obtain ⟨g, hg, he⟩ := Option.map_eq_some_iff.mp h
      cases he
      exact .wake (Signal.wait?_eq_some.mp hg).1
  | pollSignal t k started =>
      simp only [callerNext] at h
      split at h
      case h_1 hp =>
        cases h
        exact .polled (by rw [← Signal.poll_fst (m.cell t).signal started e, hp])
      case h_2 =>
        cases h
        exact .notPolled
  | takeState t =>
      simp only [callerNext] at h
      cases hs : (m.cell t).state with
      | ready =>
          rw [hs] at h
          cases h
          exact .takeReady hs
      | panicked q =>
          rw [hs] at h
          cases h
          exact .takePanicked (by rw [hs]; rfl)
      | cancelled =>
          rw [hs] at h
          cases h
          exact .takeCancelled hs
      | pending =>
          rw [hs] at h
          cases h
          exact .takePending hs
  | takeBuffer t =>
      simp only [callerNext] at h
      split at h
      case h_1 v hv =>
        cases h
        exact .takeBuffer hv
      case h_2 hv =>
        cases h
        exact .takeNone hv
  | run p =>
      simp only [callerNext] at h
      split at h
      case h_1 hp =>
        simp only [Pass.endNext] at h
        split at h
        case isTrue ha =>
          split at h
          case isTrue hn =>
            cases h
            exact .giveUp hp ha hn
          case isFalse =>
            cases h
            exact .again hp ha
        case isFalse ha =>
          cases h
          exact .endRun hp (Bool.eq_false_iff.mpr ha)
      case h_2 hp =>
        cases h
        exact .next hp
  | isPanicked x p =>
      simp only [callerNext] at h
      split at h
      case isTrue hp =>
        cases h
        exact .isPanicked hp
      case isFalse hp =>
        cases h
        exact .notPanicked (Bool.eq_false_iff.mpr hp)
  | getPanic x p =>
      simp only [callerNext] at h
      split at h
      case h_1 hq =>
        cases h
        exact .getPanic hq
      case h_2 =>
        cases h
        exact .panic
  | isCancelled x p =>
      simp only [callerNext] at h
      split at h
      case isTrue hc =>
        cases h
        exact .predCancelled (TaskState.beq_cancelled.mp hc)
      case isFalse hc =>
        cases h
        exact .predNotCancelled fun he => hc (TaskState.beq_cancelled.mpr he)
  | isCancelledSelf x p =>
      simp only [callerNext] at h
      split at h
      case isTrue hc =>
        cases h
        exact .selfCancelled (TaskState.beq_cancelled.mp hc)
      case isFalse hc =>
        cases h
        exact .selfNotCancelled fun he => hc (TaskState.beq_cancelled.mpr he)
  | canExecute x ss p =>
      cases ss with
      | nil =>
          simp only [callerNext] at h
          split at h
          case isTrue hp =>
            cases h
            exact .pass (TaskState.bne_pending.mp hp)
          case isFalse hp =>
            simp only [Pass.notRun] at h
            split at h
            case isTrue ha =>
              cases h
              exact .predPendingKept (by simpa using hp) ha
            case isFalse ha =>
              cases h
              exact .predPendingDropped (by simpa using hp) (Bool.eq_false_iff.mpr ha)
      | cons s ss =>
          simp only [callerNext] at h
          split at h
          case isTrue hs =>
            cases h
            exact .signalled hs
          case isFalse hs =>
            simp only [Pass.notRun] at h
            split at h
            case isTrue ha =>
              cases h
              exact .unsignalledKept (Bool.eq_false_iff.mpr hs) ha
            case isFalse ha =>
              cases h
              exact .unsignalledDropped (Bool.eq_false_iff.mpr hs) (Bool.eq_false_iff.mpr ha)
  | replace x st f site p =>
      cases h
      exact .replace
  | newSignal x p =>
      cases h
      exact .newSignal
  | poll x pc p =>
      simp only [callerNext] at h
      split at h
      case h_1 => cases h
      case h_2 hp =>
        cases h
        exact .more hp
      case h_3 hp =>
        cases h
        exact .pending hp
      case h_4 hp =>
        cases h
        exact .err hp
      case h_5 hp =>
        cases h
        exact .ready hp
  | block x v p =>
      obtain ⟨g, hg, he⟩ := Option.map_eq_some_iff.mp h
      cases he
      exact .unblock (Signal.wait?_eq_some.mp hg).1
  | settle x site sp p =>
      simp only [callerNext] at h
      split at h
      case h_1 hs =>
        cases h
        exact .settle hs
      case h_2 hs =>
        cases h
        exact .settled hs
  | unwind q =>
      cases h
      exact .unwind
  | panicked q => cases h

end

end MVSync
