import MVSync.Pool.Future

/-!
# The dispatcher

`Queue::run`.  The local variables are the list `tasks`, which one pass splits
into the tasks still to be looked at and `remaining_tasks`, and the task at
hand.  Every semaphore, state and counter is read by a step of its own.
-/

namespace MVSync

variable {V P : Type}

/-- Where the dispatcher is. -/
inductive DispatcherPc (P : Type) where
  /-- The head of the loop, and its `try_recv` loop. -/
  | top (tasks : List Task)
  /-- The head of the pass over the tasks. -/
  | scan (todo remaining : List Task)
  /-- `can_execute`, with the semaphores that are left to read. -/
  | canExecute (x : Task) (ss : List SemId) (todo remaining : List Task)
  | isPanicked (x : Task) (todo remaining : List Task)
  | getPanic (x : Task) (todo remaining : List Task)
  /-- `is_cancelled`, at the state of the predecessor. -/
  | isCancelled (x : Task) (todo remaining : List Task)
  /-- `is_cancelled`, at the state of the task. -/
  | isCancelledSelf (x : Task) (todo remaining : List Task)
  /-- `Panicked` or `Cancelled` is about to be written. -/
  | replace (x : Task) (st : TaskState P) (f : Finish) (site : Site) (todo remaining : List Task)
  | settle (x : Task) (site : Site) (sp : SettlePc) (todo remaining : List Task)
  /-- `max_by_key`, with the best thread so far and the threads left. -/
  | select (x : Task) (best : Option (WorkerId × UInt32)) (left : List WorkerId)
      (todo remaining : List Task)
  /-- `thread.free_workers() > 0`. -/
  | freeWorkers (x : Task) (w : WorkerId) (todo remaining : List Task)
  /-- `WorkerThread::send`. -/
  | send (x : Task) (w : WorkerId) (todo remaining : List Task)
  /-- `WorkerThread::send`, at its `fetch_sub`. -/
  | fetchSub (w : WorkerId) (todo remaining : List Task)
  /-- `WorkerThread::send`, at its `wake`. -/
  | wakeWorker (w : WorkerId) (todo remaining : List Task)
  /-- `signal.wait()`. -/
  | wait (remaining : List Task)
  | exited
  | panicked
deriving DecidableEq, Repr

/-- The filter of the target selection: a labelled thread is left out when the
task must not run on it. -/
def Specs.admits (cfg : Specs) (x : Task) (w : WorkerId) : Bool :=
  match cfg.getLabel w with
  | some l => !x.notOn.contains l
  | none => true

/-- `max_by_key` keeps the last of the greatest elements. -/
def maxByKey (best : Option (WorkerId × UInt32)) (w : WorkerId) (k : UInt32) :
    Option (WorkerId × UInt32) :=
  match best with
  | none => some (w, k)
  | some (w₀, k₀) => if k₀ ≤ k then some (w, k) else some (w₀, k₀)

/-- The thread with a label, if the pool has one. -/
def Specs.findLabel (cfg : Specs) (l : Label) : Option WorkerId :=
  cfg.threads.find? fun w => cfg.getLabel w == some l

/-- The threads that `max_by_key` ranges over. -/
def Specs.candidates (cfg : Specs) (x : Task) : List WorkerId := cfg.threads.filter (cfg.admits x)

/-- The target thread of a task, on one snapshot of the counters. -/
def Specs.targetThread (cfg : Specs) (free : WorkerId → UInt32) (x : Task) : Option WorkerId :=
  match x.preferredThread with
  | some l => cfg.findLabel l
  | none => ((cfg.candidates x).foldl (fun best w => maxByKey best w (free w)) none).map Prod.fst

/-- `Queue::run`. -/
def dispatcherNext (cfg : Specs) :
    DispatcherPc P → Shared V P → Option (DispatcherPc P × Op V P)
  | .top [], m =>
      match m.channel with
      | x :: _ => some (.scan [x] [], .recv)
      | [] => if m.queueAlive then none else some (.exited, .exitDispatcher)
  | .top (x :: xs), m =>
      match m.channel with
      | y :: _ => some (.top (x :: xs ++ [y]), .recv)
      | [] => some (.scan (x :: xs) [], .tau)
  | .scan [] remaining, _ =>
      match remaining with
      | [] => some (.top [], .tau)
      | x :: xs => some (.wait (x :: xs), .tau)
  | .scan (x :: todo) remaining, _ => some (.canExecute x x.wait todo remaining, .tau)
  | .canExecute x (s :: ss) todo remaining, m =>
      if m.sem s then some (.canExecute x ss todo remaining, .tau)
      else some (.scan todo (remaining ++ [x]), .tau)
  | .canExecute x [] todo remaining, m =>
      if m.predState x != .pending then some (.isPanicked x todo remaining, .tau)
      else some (.scan todo (remaining ++ [x]), .tau)
  | .isPanicked x todo remaining, m =>
      if m.isPanicked x then some (.getPanic x todo remaining, .tau)
      else some (.isCancelled x todo remaining, .tau)
  | .getPanic x todo remaining, m =>
      match (m.predState x).take with
      | .panicked q =>
          some (.replace x (.panicked q) .panicked .dispatcherPanicked todo remaining, .tau)
      -- "Tired to get the panic value of non-panicking function!"
      | _ => some (.panicked, .dropDispatcher)
  | .isCancelled x todo remaining, m =>
      if m.predState x == .cancelled then
        some (.replace x .cancelled .cancelled .dispatcherCancelled todo remaining, .tau)
      else some (.isCancelledSelf x todo remaining, .tau)
  | .isCancelledSelf x todo remaining, m =>
      if (m.cell x.id).state == .cancelled then
        some (.replace x .cancelled .cancelled .dispatcherCancelled todo remaining, .tau)
      else
        match x.preferredThread with
        | some l =>
            match cfg.findLabel l with
            | some w => some (.freeWorkers x w todo remaining, .tau)
            -- no thread has the label
            | none => some (.scan todo (remaining ++ [x.removePreferredThread]), .tau)
        | none => some (.select x none (cfg.candidates x) todo remaining, .tau)
  | .replace x st f site todo remaining, _ =>
      some (.settle x site (.begin x) todo remaining, .replace x.id st f)
  | .settle x site sp todo remaining, _ =>
      match settleNext x site sp with
      | (some sp', o) => some (.settle x site sp' todo remaining, o)
      | (none, o) => some (.scan todo remaining, o)
  | .select x best (w :: ws) todo remaining, m =>
      some (.select x (maxByKey best w (m.freeWorkers w)) ws todo remaining, .tau)
  | .select x best [] todo remaining, _ =>
      match best with
      | some (w, _) => some (.freeWorkers x w todo remaining, .tau)
      | none => some (.scan todo (remaining ++ [x.clearNotOn]), .tau)
  | .freeWorkers x w todo remaining, m =>
      if m.freeWorkers w > 0 then some (.send x w todo remaining, .tau)
      else some (.scan todo (remaining ++ [x]), .tau)
  | .send x w todo remaining, _ => some (.fetchSub w todo remaining, .sendWorker w x)
  | .fetchSub w todo remaining, _ => some (.wakeWorker w todo remaining, .fetchSub w)
  | .wakeWorker w todo remaining, _ => some (.scan todo remaining, .wakeWorker w)
  | .wait remaining, m =>
      m.queueSignal.wait?.map fun _ => (.top remaining, .waitQueueSignal)
  | .exited, _ => none
  | .panicked, _ => none

/-! ## The steps of the dispatcher -/

/-- The steps of `Queue::run`. -/
inductive DispatcherStep (cfg : Specs) (m : Shared V P) :
    DispatcherPc P → DispatcherPc P → Op V P → Prop where
  | recv {x : Task} {xs : List Task} (h : m.channel = x :: xs) :
      DispatcherStep cfg m (.top []) (.scan [x] []) .recv
  | exit (h : m.channel = []) (hq : m.queueAlive = false) :
      DispatcherStep cfg m (.top []) .exited .exitDispatcher
  | tryRecv {x y : Task} {xs ys : List Task} (h : m.channel = y :: ys) :
      DispatcherStep cfg m (.top (x :: xs)) (.top (x :: xs ++ [y])) .recv
  | received {x : Task} {xs : List Task} (h : m.channel = []) :
      DispatcherStep cfg m (.top (x :: xs)) (.scan (x :: xs) []) .tau
  | emptied : DispatcherStep cfg m (.scan [] []) (.top []) .tau
  | sleep {x : Task} {xs : List Task} :
      DispatcherStep cfg m (.scan [] (x :: xs)) (.wait (x :: xs)) .tau
  | next {x : Task} {todo remaining : List Task} :
      DispatcherStep cfg m (.scan (x :: todo) remaining) (.canExecute x x.wait todo remaining) .tau
  | signalled {x : Task} {t : SemId} {ts : List SemId} {todo remaining : List Task}
      (h : m.sem t = true) :
      DispatcherStep cfg m (.canExecute x (t :: ts) todo remaining)
        (.canExecute x ts todo remaining) .tau
  | unsignalled {x : Task} {t : SemId} {ts : List SemId} {todo remaining : List Task}
      (h : m.sem t = false) :
      DispatcherStep cfg m (.canExecute x (t :: ts) todo remaining)
        (.scan todo (remaining ++ [x])) .tau
  | executable {x : Task} {todo remaining : List Task} (h : m.predState x ≠ .pending) :
      DispatcherStep cfg m (.canExecute x [] todo remaining) (.isPanicked x todo remaining) .tau
  | pending {x : Task} {todo remaining : List Task} (h : m.predState x = .pending) :
      DispatcherStep cfg m (.canExecute x [] todo remaining) (.scan todo (remaining ++ [x])) .tau
  | isPanicked {x : Task} {todo remaining : List Task} (h : m.isPanicked x = true) :
      DispatcherStep cfg m (.isPanicked x todo remaining) (.getPanic x todo remaining) .tau
  | notPanicked {x : Task} {todo remaining : List Task} (h : m.isPanicked x = false) :
      DispatcherStep cfg m (.isPanicked x todo remaining) (.isCancelled x todo remaining) .tau
  | getPanic {x : Task} {q : Payload P} {todo remaining : List Task}
      (h : (m.predState x).take = .panicked q) :
      DispatcherStep cfg m (.getPanic x todo remaining)
        (.replace x (.panicked q) .panicked .dispatcherPanicked todo remaining) .tau
  | panic {x : Task} {todo remaining : List Task} (h : m.isPanicked x = false) :
      DispatcherStep cfg m (.getPanic x todo remaining) .panicked .dropDispatcher
  | predCancelled {x : Task} {todo remaining : List Task} (h : m.predState x = .cancelled) :
      DispatcherStep cfg m (.isCancelled x todo remaining)
        (.replace x .cancelled .cancelled .dispatcherCancelled todo remaining) .tau
  | predNotCancelled {x : Task} {todo remaining : List Task} (h : m.predState x ≠ .cancelled) :
      DispatcherStep cfg m (.isCancelled x todo remaining) (.isCancelledSelf x todo remaining) .tau
  | selfCancelled {x : Task} {todo remaining : List Task}
      (h : (m.cell x.id).state = .cancelled) :
      DispatcherStep cfg m (.isCancelledSelf x todo remaining)
        (.replace x .cancelled .cancelled .dispatcherCancelled todo remaining) .tau
  | preferred {x : Task} {l : Label} {w : WorkerId} {todo remaining : List Task}
      (h : (m.cell x.id).state ≠ .cancelled) (hl : x.preferredThread = some l)
      (hw : cfg.findLabel l = some w) :
      DispatcherStep cfg m (.isCancelledSelf x todo remaining) (.freeWorkers x w todo remaining)
        .tau
  | noLabel {x : Task} {l : Label} {todo remaining : List Task}
      (h : (m.cell x.id).state ≠ .cancelled) (hl : x.preferredThread = some l)
      (hw : cfg.findLabel l = none) :
      DispatcherStep cfg m (.isCancelledSelf x todo remaining)
        (.scan todo (remaining ++ [x.removePreferredThread])) .tau
  | noPreference {x : Task} {todo remaining : List Task}
      (h : (m.cell x.id).state ≠ .cancelled) (hl : x.preferredThread = none) :
      DispatcherStep cfg m (.isCancelledSelf x todo remaining)
        (.select x none (cfg.candidates x) todo remaining) .tau
  | replace {x : Task} {st : TaskState P} {f : Finish} {site : Site} {todo remaining : List Task} :
      DispatcherStep cfg m (.replace x st f site todo remaining)
        (.settle x site (.begin x) todo remaining) (.replace x.id st f)
  | settle {x : Task} {site : Site} {sp sp' : SettlePc} {todo remaining : List Task} {o : Op V P}
      (h : settleNext x site sp = (some sp', o)) :
      DispatcherStep cfg m (.settle x site sp todo remaining) (.settle x site sp' todo remaining) o
  | settled {x : Task} {site : Site} {sp : SettlePc} {todo remaining : List Task} {o : Op V P}
      (h : settleNext x site sp = (none, o)) :
      DispatcherStep cfg m (.settle x site sp todo remaining) (.scan todo remaining) o
  | select {x : Task} {best : Option (WorkerId × UInt32)} {w : WorkerId} {ws : List WorkerId}
      {todo remaining : List Task} :
      DispatcherStep cfg m (.select x best (w :: ws) todo remaining)
        (.select x (maxByKey best w (m.freeWorkers w)) ws todo remaining) .tau
  | selected {x : Task} {w : WorkerId} {k : UInt32} {todo remaining : List Task} :
      DispatcherStep cfg m (.select x (some (w, k)) [] todo remaining)
        (.freeWorkers x w todo remaining) .tau
  | noThread {x : Task} {todo remaining : List Task} :
      DispatcherStep cfg m (.select x none [] todo remaining)
        (.scan todo (remaining ++ [x.clearNotOn])) .tau
  | free {x : Task} {w : WorkerId} {todo remaining : List Task} (h : m.freeWorkers w > 0) :
      DispatcherStep cfg m (.freeWorkers x w todo remaining) (.send x w todo remaining) .tau
  | busy {x : Task} {w : WorkerId} {todo remaining : List Task} (h : ¬m.freeWorkers w > 0) :
      DispatcherStep cfg m (.freeWorkers x w todo remaining) (.scan todo (remaining ++ [x])) .tau
  | send {x : Task} {w : WorkerId} {todo remaining : List Task} :
      DispatcherStep cfg m (.send x w todo remaining) (.fetchSub w todo remaining)
        (.sendWorker w x)
  | fetchSub {w : WorkerId} {todo remaining : List Task} :
      DispatcherStep cfg m (.fetchSub w todo remaining) (.wakeWorker w todo remaining)
        (.fetchSub w)
  | wakeWorker {w : WorkerId} {todo remaining : List Task} :
      DispatcherStep cfg m (.wakeWorker w todo remaining) (.scan todo remaining) (.wakeWorker w)
  | wake {remaining : List Task} (h : m.queueSignal.ready = true) :
      DispatcherStep cfg m (.wait remaining) (.top remaining) .waitQueueSignal

section

variable {cfg : Specs} {m : Shared V P}

theorem dispatcherNext_step {p p' : DispatcherPc P} {o : Op V P}
    (h : dispatcherNext cfg p m = some (p', o)) : DispatcherStep cfg m p p' o := by
  cases p with
  | top tasks =>
      cases tasks with
      | nil =>
          simp only [dispatcherNext] at h
          split at h
          case h_1 hc =>
            cases h
            exact .recv hc
          case h_2 hc =>
            split at h
            case isTrue => cases h
            case isFalse hq =>
              cases h
              exact .exit hc (Bool.eq_false_iff.mpr hq)
      | cons x xs =>
          simp only [dispatcherNext] at h
          split at h
          case h_1 hc =>
            cases h
            exact .tryRecv hc
          case h_2 hc =>
            cases h
            exact .received hc
  | scan todo remaining =>
      cases todo with
      | nil =>
          cases remaining with
          | nil =>
              cases h
              exact .emptied
          | cons x xs =>
              cases h
              exact .sleep
      | cons x todo =>
          cases h
          exact .next
  | canExecute x ts todo remaining =>
      cases ts with
      | nil =>
          simp only [dispatcherNext] at h
          split at h
          case isTrue hp =>
            cases h
            exact .executable (TaskState.bne_pending.mp hp)
          case isFalse hp =>
            cases h
            exact .pending (by simpa using hp)
      | cons t ts =>
          simp only [dispatcherNext] at h
          split at h
          case isTrue ht =>
            cases h
            exact .signalled ht
          case isFalse ht =>
            cases h
            exact .unsignalled (Bool.eq_false_iff.mpr ht)
  | isPanicked x todo remaining =>
      simp only [dispatcherNext] at h
      split at h
      case isTrue hp =>
        cases h
        exact .isPanicked hp
      case isFalse hp =>
        cases h
        exact .notPanicked (Bool.eq_false_iff.mpr hp)
  | getPanic x todo remaining =>
      simp only [dispatcherNext] at h
      split at h
      case h_1 q hq =>
        cases h
        exact .getPanic hq
      case h_2 hnot =>
        cases h
        refine .panic (Bool.eq_false_iff.mpr fun hp => ?_)
        obtain ⟨q, hq⟩ := TaskState.isPanicked_iff.mp hp
        exact hnot .unit (by rw [hq]; rfl)
  | isCancelled x todo remaining =>
      simp only [dispatcherNext] at h
      split at h
      case isTrue hc =>
        cases h
        exact .predCancelled (TaskState.beq_cancelled.mp hc)
      case isFalse hc =>
        cases h
        exact .predNotCancelled fun he => hc (TaskState.beq_cancelled.mpr he)
  | isCancelledSelf x todo remaining =>
      simp only [dispatcherNext] at h
      split at h
      case isTrue hc =>
        cases h
        exact .selfCancelled (TaskState.beq_cancelled.mp hc)
      case isFalse hc =>
        have hc' : (m.cell x.id).state ≠ .cancelled := fun he => hc (TaskState.beq_cancelled.mpr he)
        split at h
        case h_1 l hl =>
          split at h
          case h_1 w hw =>
            cases h
            exact .preferred hc' hl hw
          case h_2 hw =>
            cases h
            exact .noLabel hc' hl hw
        case h_2 hl =>
          cases h
          exact .noPreference hc' hl
  | replace x st f site todo remaining =>
      cases h
      exact .replace
  | settle x site sp todo remaining =>
      simp only [dispatcherNext] at h
      split at h
      case h_1 hs =>
        cases h
        exact .settle hs
      case h_2 hs =>
        cases h
        exact .settled hs
  | select x best left todo remaining =>
      cases left with
      | nil =>
          cases best with
          | none =>
              cases h
              exact .noThread
          | some b =>
              cases h
              exact .selected
      | cons w ws =>
          cases h
          exact .select
  | freeWorkers x w todo remaining =>
      simp only [dispatcherNext] at h
      split at h
      case isTrue hf =>
        cases h
        exact .free hf
      case isFalse hf =>
        cases h
        exact .busy hf
  | send x w todo remaining =>
      cases h
      exact .send
  | fetchSub w todo remaining =>
      cases h
      exact .fetchSub
  | wakeWorker w todo remaining =>
      cases h
      exact .wakeWorker
  | wait remaining =>
      obtain ⟨g, hg, he⟩ := Option.map_eq_some_iff.mp h
      cases he
      exact .wake (Signal.wait?_eq_some.mp hg).1
  | exited => cases h
  | panicked => cases h

end

end MVSync
