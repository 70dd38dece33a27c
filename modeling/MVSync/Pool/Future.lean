import MVSync.Pool.Memory

/-!
# Futures and settling

The two pieces of code that the dispatcher, the workers and inline execution
share.

`pollNext` is one step of `poll` on the future of a task, as the `from_*`
constructors of `Task` build it.  A poll runs until the future is ready, awaits
something that is pending, or panics.  The user code of a task runs at position
`body`, where the environment decides how long it takes and, if the future
awaits user code, whether the poll ends pending.

`settleNext` is one step of the two loops that end every settling site: signal
the semaphores, then wake the two signals of the task.
-/

namespace MVSync

variable {V P : Type}

/-! ## Polling -/

/-- Where the poll of a future is. -/
inductive PollPc (V P : Type) where
  /-- The async block is entered. -/
  | start
  /-- `predecessor.wait()`, at its `Signal::wait`. -/
  | waitSignal (p : TaskId)
  /-- `predecessor.wait()`, at its `state.write().unwrap().take()`. -/
  | takeState (p : TaskId)
  /-- `predecessor.wait()`, at its `inner.write().unwrap().take().unwrap()`. -/
  | takeBuffer (p : TaskId)
  /-- `prev_state.write().unwrap().take()`. -/
  | readState (p : TaskId) (r : TaskResult V P)
  /-- In user code. -/
  | body (v : Option V)
  /-- The value is about to be put into the buffer. -/
  | writeBuffer (r : V)
  /-- `Ready` is about to be written. -/
  | writeReady
  /-- `Panicked` or `Cancelled` is about to be written. -/
  | replace (r : TaskResult V P) (st : TaskState P) (f : Finish)
deriving DecidableEq, Repr

/-- What a step of a poll leads to. -/
inductive PollResult (V P : Type) where
  /-- The poll goes on. -/
  | more (p : PollPc V P)
  /-- `Poll::Pending`, in user code that was invoked with `v`. -/
  | pending (v : Option V)
  /-- The poll panics. -/
  | err (q : Payload P)
  /-- `Poll::Ready(())`. -/
  | ready
deriving DecidableEq, Repr

/-- One step of `poll` on the future of `x`.  `pends` is the choice of the
environment while user code runs. -/
def pollNext (prog : Program V P) (x : Task) (pends : Bool) :
    PollPc V P → Shared V P → Option (PollResult V P × Op V P)
  | .start, _ =>
      match x.inner.predecessor with
      | none => some (.more (.body none), .invoke x.id none)
      | some p => some (.more (.waitSignal p), .tau)
  | .waitSignal p, m =>
      (m.cell p).signal.wait?.map fun _ =>
        (.more (.takeState p), .waitSignal p (.continuation x.id))
  | .takeState p, m =>
      match (m.cell p).state.take with
      | .ready => some (.more (.takeBuffer p), .tau)
      | .panicked q =>
          some (.more (.readState p (.panicked q)),
            .takeResult p (.continuation x.id) (.panicked q))
      | .cancelled =>
          some (.more (.readState p .cancelled), .takeResult p (.continuation x.id) .cancelled)
      | .pending =>
          some (.err (.message "Function finished but is still pending!"), .futurePanics x.id)
  | .takeBuffer p, m =>
      match (m.cell p).buffer with
      | some v =>
          some (.more (.readState p (.returned v)), .takeBuffer p (.continuation x.id) v)
      | none =>
          some (.err (.message "called `Option::unwrap()` on a `None` value"), .futurePanics x.id)
  | .readState p r, m =>
      match (m.cell p).state.take with
      | .ready =>
          match r with
          | .returned v => some (.more (.body (some v)), .invoke x.id (some v))
          | _ => some (.ready, .silent x.id)
      | .panicked q => some (.more (.replace r (.panicked q) .panicked), .tau)
      | .cancelled => some (.more (.replace r .cancelled .cancelled), .tau)
      | .pending => some (.more (.replace r .cancelled .cancelled), .tau)
  | .body v, _ =>
      if pends then
        if x.inner.awaits then some (.pending v, .tau) else none
      else
        match prog.body x.id v with
        | .ok r => some (.more (.writeBuffer r), .bodyReturns x.id r)
        | .error q => some (.err q, .futurePanics x.id)
  | .writeBuffer r, _ => some (.more .writeReady, .writeBuffer x.id r)
  | .writeReady, _ => some (.ready, .writeReady x.id)
  | .replace _ st f, _ => some (.ready, .replace x.id st f)

/-- The steps of a poll of the future of `x`. -/
inductive PollStep (prog : Program V P) (x : Task) (pends : Bool) (m : Shared V P) :
    PollPc V P → PollResult V P → Op V P → Prop where
  | invoke (h : x.inner.predecessor = none) :
      PollStep prog x pends m .start (.more (.body none)) (.invoke x.id none)
  | await {p : TaskId} (h : x.inner.predecessor = some p) :
      PollStep prog x pends m .start (.more (.waitSignal p)) .tau
  | wake {p : TaskId} (h : (m.cell p).signal.ready = true) :
      PollStep prog x pends m (.waitSignal p) (.more (.takeState p))
        (.waitSignal p (.continuation x.id))
  | takeReady {p : TaskId} (h : (m.cell p).state = .ready) :
      PollStep prog x pends m (.takeState p) (.more (.takeBuffer p)) .tau
  | takePanicked {p : TaskId} {q : Payload P} (h : (m.cell p).state.take = .panicked q) :
      PollStep prog x pends m (.takeState p) (.more (.readState p (.panicked q)))
        (.takeResult p (.continuation x.id) (.panicked q))
  | takeCancelled {p : TaskId} (h : (m.cell p).state = .cancelled) :
      PollStep prog x pends m (.takeState p) (.more (.readState p .cancelled))
        (.takeResult p (.continuation x.id) .cancelled)
  | takePending {p : TaskId} (h : (m.cell p).state = .pending) :
      PollStep prog x pends m (.takeState p)
        (.err (.message "Function finished but is still pending!")) (.futurePanics x.id)
  | takeBuffer {p : TaskId} {v : V} (h : (m.cell p).buffer = some v) :
      PollStep prog x pends m (.takeBuffer p) (.more (.readState p (.returned v)))
        (.takeBuffer p (.continuation x.id) v)
  | takeNone {p : TaskId} (h : (m.cell p).buffer = none) :
      PollStep prog x pends m (.takeBuffer p)
        (.err (.message "called `Option::unwrap()` on a `None` value")) (.futurePanics x.id)
  | predReturned {p : TaskId} {v : V} (h : (m.cell p).state = .ready) :
      PollStep prog x pends m (.readState p (.returned v)) (.more (.body (some v)))
        (.invoke x.id (some v))
  | silent {p : TaskId} {r : TaskResult V P} (h : (m.cell p).state = .ready)
      (hr : ∀ v, r ≠ .returned v) :
      PollStep prog x pends m (.readState p r) .ready (.silent x.id)
  | predPanicked {p : TaskId} {r : TaskResult V P} {q : Payload P}
      (h : (m.cell p).state.take = .panicked q) :
      PollStep prog x pends m (.readState p r) (.more (.replace r (.panicked q) .panicked)) .tau
  | predCancelled {p : TaskId} {r : TaskResult V P}
      (h : (m.cell p).state = .cancelled ∨ (m.cell p).state = .pending) :
      PollStep prog x pends m (.readState p r) (.more (.replace r .cancelled .cancelled)) .tau
  | pending {v : Option V} (hp : pends = true) (h : x.inner.awaits = true) :
      PollStep prog x pends m (.body v) (.pending v) .tau
  | returns {v : Option V} {r : V} (h : prog.body x.id v = .ok r) :
      PollStep prog x pends m (.body v) (.more (.writeBuffer r)) (.bodyReturns x.id r)
  | panic {v : Option V} {q : Payload P} (h : prog.body x.id v = .error q) :
      PollStep prog x pends m (.body v) (.err q) (.futurePanics x.id)
  | writeBuffer {r : V} :
      PollStep prog x pends m (.writeBuffer r) (.more .writeReady) (.writeBuffer x.id r)
  | writeReady : PollStep prog x pends m .writeReady .ready (.writeReady x.id)
  | replace {r : TaskResult V P} {st : TaskState P} {f : Finish} :
      PollStep prog x pends m (.replace r st f) .ready (.replace x.id st f)

theorem pollNext_step {prog : Program V P} {x : Task} {pends : Bool} {p : PollPc V P}
    {m : Shared V P} {r : PollResult V P} {o : Op V P}
    (h : pollNext prog x pends p m = some (r, o)) : PollStep prog x pends m p r o := by
  cases p with
  | start =>
      simp only [pollNext] at h
      split at h
      case h_1 hp =>
        cases h
        exact .invoke hp
      case h_2 hp =>
        cases h
        exact .await hp
  | waitSignal p =>
      obtain ⟨g, hg, he⟩ := Option.map_eq_some_iff.mp h
      cases he
      exact .wake (Signal.wait?_eq_some.mp hg).1
  | takeState p =>
      simp only [pollNext] at h
      cases hs : (m.cell p).state with
      | ready =>
          rw [hs] at h
          cases h
          exact .takeReady hs
      | panicked q =>
          rw [hs] at h
          cases h
          exact .takePanicked (by rw [hs]; rfl)
      | cancelled =>
          rw [hs] at h
          cases h
          exact .takeCancelled hs
      | pending =>
          rw [hs] at h
          cases h
          exact .takePending hs
  | takeBuffer p =>
      simp only [pollNext] at h
      split at h
      case h_1 hv =>
        cases h
        exact .takeBuffer hv
      case h_2 hv =>
        cases h
        exact .takeNone hv
  | readState p r =>
      simp only [pollNext] at h
      cases hs : (m.cell p).state with
      | ready =>
          rw [hs] at h
          cases r with
          | returned v =>
              cases h
              exact .predReturned hs
          | panicked q =>
              cases h
              exact .silent hs nofun
          | cancelled =>
              cases h
              exact .silent hs nofun
      | panicked q =>
          rw [hs] at h
          cases h
          exact .predPanicked (by rw [hs]; rfl)
      | cancelled =>
          rw [hs] at h
          cases h
          exact .predCancelled (.inl hs)
      | pending =>
          rw [hs] at h
          cases h
          exact .predCancelled (.inr hs)
  | body v =>
      simp only [pollNext] at h
      split at h
      case isTrue hp =>
        split at h
        case isTrue ha =>
          cases h
          exact .pending hp ha
        case isFalse => cases h
      case isFalse =>
        split at h
        case h_1 hr =>
          cases h
          exact .returns hr
        case h_2 hq =>
          cases h
          exact .panic hq
  | writeBuffer r =>
      cases h
      exact .writeBuffer
  | writeReady =>
      cases h
      exact .writeReady
  | replace r st f =>
      cases h
      exact .replace

/-- The stage of a task while its future is at a position. -/
def PollPc.stage : PollPc V P → Stage V P
  | .start | .waitSignal _ => .passed
  | .takeState _ | .takeBuffer _ => .tookFlag
  | .readState _ r | .replace r _ _ => .tookResult r
  | .body v => .running v
  | .writeBuffer r => .returned r
  | .writeReady => .written

/-- The stage of a task after a poll step. -/
def PollResult.stage : PollResult V P → Stage V P
  | .more p => p.stage
  | .pending v => .running v
  | .err _ => .panicking
  | .ready => .finished

/-! ## Settling -/

/-- Where the two loops of a settling site are. -/
inductive SettlePc where
  /-- The semaphores that are left. -/
  | signals (ss : List SemId)
  /-- The completion signal is woken, the queue signal is not. -/
  | wakeQueue
deriving DecidableEq, Repr

/-- The first position of a settling site. -/
def SettlePc.begin (x : Task) : SettlePc := .signals x.semaphores

/-- One step of a settling site. -/
def settleNext (x : Task) (site : Site) : SettlePc → Option SettlePc × Op V P
  | .signals (s :: ss) => (some (.signals ss), .signalSem x.id s)
  | .signals [] => (some .wakeQueue, .wakeSignal x.id site)
  | .wakeQueue => (none, .wakeQueue x.id x.home site)

/-- The stage of a task at a position of its settling site. -/
def SettlePc.stage (site : Site) : SettlePc → Stage V P
  | .signals _ => .finished
  | .wakeQueue => .woken site

/-! ## What a future does -/

/-- The operations of polling and settling. -/
def Op.ofFuture : Op V P → Bool
  | .tau | .invoke _ _ | .bodyReturns _ _ | .futurePanics _ | .writeBuffer _ _ | .writeReady _
  | .replace _ _ _ | .silent _ | .waitSignal _ _ | .takeResult _ _ _ | .takeBuffer _ _ _
  | .signalSem _ _ | .wakeSignal _ _ | .wakeQueue _ _ _ => true
  | _ => false

theorem pollNext_ofFuture {prog : Program V P} {x : Task} {pends : Bool} {p : PollPc V P}
    {m : Shared V P} {r : PollResult V P} {op : Op V P}
    (h : pollNext prog x pends p m = some (r, op)) : op.ofFuture = true := by
  cases pollNext_step h <;> rfl

theorem settleNext_ofFuture {x : Task} {site : Site} {sp : SettlePc} {sp' : Option SettlePc}
    {op : Op V P} (h : settleNext x site sp = (sp', op)) : op.ofFuture = true := by
  unfold settleNext at h
  split at h <;> cases h <;> rfl

end MVSync
