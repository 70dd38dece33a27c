import MVSync.Pool.Future

/-!
# The workers

`WorkerThread::run` of a pool worker.  The local variable is the list of
futures, which `retain_mut` splits into the ones it keeps and the ones it has
not polled yet.  The end flag of a pool worker is never raised, so the loop
breaks only when the dispatcher dropped the sender of the channel.
-/

namespace MVSync

variable {V P : Type}

/-- A future in the list of a worker: its task, and the input of its body if it
was polled before. -/
structure Fut (V : Type) where
  task : Task
  suspended : Option (Option V)
deriving DecidableEq, Repr

/-- Where a poll of the future begins. -/
def Fut.entry (f : Fut V) : PollPc V P :=
  match f.suspended with
  | none => .start
  | some v => .body v

@[simp] theorem Fut.entry_new (x : Task) :
    (⟨x, none⟩ : Fut V).entry = (.start : PollPc V P) := rfl

@[simp] theorem Fut.entry_suspended (x : Task) (v : Option V) :
    (⟨x, some v⟩ : Fut V).entry = (.body v : PollPc V P) := rfl

/-- Where a worker is. -/
inductive WorkerPc (V P : Type) where
  /-- The head of the loop, and its `try_recv` loop. -/
  | top (futures : List (Fut V))
  /-- The head of `retain_mut`. -/
  | retain (kept todo : List (Fut V))
  | poll (x : Task) (p : PollPc V P) (kept todo : List (Fut V))
  /-- The `Pending` arm. -/
  | pendingArm (x : Task) (v : Option V) (kept todo : List (Fut V))
  /-- The `Err` arm. -/
  | errArm (x : Task) (q : Payload P) (kept todo : List (Fut V))
  /-- The `Ready` arm. -/
  | readyArm (x : Task) (kept todo : List (Fut V))
  | settle (x : Task) (site : Site) (sp : SettlePc) (kept todo : List (Fut V))
  /-- After `retain_mut`. -/
  | check (futures : List (Fut V))
  /-- `signal.wait()`. -/
  | wait (futures : List (Fut V))
  | exited
deriving DecidableEq, Repr

/-- `WorkerThread::run` of pool worker `w`. -/
def workerNext (prog : Program V P) (w : WorkerId) (pends : Bool) :
    WorkerPc V P → Shared V P → Option (WorkerPc V P × Op V P)
  | .top [], m =>
      match m.workerChannel w with
      | x :: _ => some (.retain [] [⟨x, none⟩], .recvWorker w)
      | [] => if m.dispatcherAlive then none else some (.exited, .tau)
  | .top (f :: fs), m =>
      match m.workerChannel w with
      | x :: _ => some (.top (f :: fs ++ [⟨x, none⟩]), .recvWorker w)
      | [] => some (.retain [] (f :: fs), .tau)
  | .retain kept [], _ => some (.check kept, .tau)
  | .retain kept (f :: todo), _ => some (.poll f.task f.entry kept todo, .tau)
  | .poll x p kept todo, m =>
      match pollNext prog x pends p m with
      | none => none
      | some (.more p', o) => some (.poll x p' kept todo, o)
      | some (.pending v, o) => some (.pendingArm x v kept todo, o)
      | some (.err q, o) => some (.errArm x q kept todo, o)
      | some (.ready, o) => some (.readyArm x kept todo, o)
  | .pendingArm x v kept todo, m =>
      if (m.cell x.id).state == .cancelled then
        some (.settle x .workerPending (.begin x) kept todo, .foundCancelled x.id w)
      else some (.retain (kept ++ [⟨x, some v⟩]) todo, .tau)
  | .errArm x q kept todo, _ =>
      some (.settle x .workerErr (.begin x) kept todo, .replacePanicked x.id q w)
  | .readyArm x kept todo, _ =>
      some (.settle x .workerReady (.begin x) kept todo, .fetchAdd w)
  | .settle x site sp kept todo, _ =>
      match settleNext x site sp with
      | (some sp', o) => some (.settle x site sp' kept todo, o)
      | (none, o) => some (.retain kept todo, o)
  | .check [], _ => some (.top [], .tau)
  | .check (f :: fs), m =>
      if (m.workerChannel w).isEmpty then some (.wait (f :: fs), .tau)
      else some (.top (f :: fs), .tau)
  | .wait futures, m =>
      (m.workerSignal w).wait?.map fun _ => (.top futures, .waitWorkerSignal w)
  | .exited, _ => none

/-! ## The steps of a worker -/

/-- The steps of `WorkerThread::run`. -/
inductive WorkerStep (prog : Program V P) (w : WorkerId) (pends : Bool) (m : Shared V P) :
    WorkerPc V P → WorkerPc V P → Op V P → Prop where
  | recv {x : Task} {xs : List Task} (h : m.workerChannel w = x :: xs) :
      WorkerStep prog w pends m (.top []) (.retain [] [⟨x, none⟩]) (.recvWorker w)
  | exit (h : m.workerChannel w = []) (hd : m.dispatcherAlive = false) :
      WorkerStep prog w pends m (.top []) .exited .tau
  | tryRecv {f : Fut V} {fs : List (Fut V)} {x : Task} {xs : List Task}
      (h : m.workerChannel w = x :: xs) :
      WorkerStep prog w pends m (.top (f :: fs)) (.top (f :: fs ++ [⟨x, none⟩])) (.recvWorker w)
  | received {f : Fut V} {fs : List (Fut V)} (h : m.workerChannel w = []) :
      WorkerStep prog w pends m (.top (f :: fs)) (.retain [] (f :: fs)) .tau
  | retained {kept : List (Fut V)} :
      WorkerStep prog w pends m (.retain kept []) (.check kept) .tau
  | next {f : Fut V} {kept todo : List (Fut V)} :
      WorkerStep prog w pends m (.retain kept (f :: todo)) (.poll f.task f.entry kept todo) .tau
  | more {x : Task} {p p' : PollPc V P} {kept todo : List (Fut V)} {o : Op V P}
      (h : pollNext prog x pends p m = some (.more p', o)) :
      WorkerStep prog w pends m (.poll x p kept todo) (.poll x p' kept todo) o
  | pending {x : Task} {p : PollPc V P} {v : Option V} {kept todo : List (Fut V)} {o : Op V P}
      (h : pollNext prog x pends p m = some (.pending v, o)) :
      WorkerStep prog w pends m (.poll x p kept todo) (.pendingArm x v kept todo) o
  | err {x : Task} {p : PollPc V P} {q : Payload P} {kept todo : List (Fut V)} {o : Op V P}
      (h : pollNext prog x pends p m = some (.err q, o)) :
      WorkerStep prog w pends m (.poll x p kept todo) (.errArm x q kept todo) o
  | ready {x : Task} {p : PollPc V P} {kept todo : List (Fut V)} {o : Op V P}
      (h : pollNext prog x pends p m = some (.ready, o)) :
      WorkerStep prog w pends m (.poll x p kept todo) (.readyArm x kept todo) o
  | pendingCancelled {x : Task} {v : Option V} {kept todo : List (Fut V)}
      (h : (m.cell x.id).state = .cancelled) :
      WorkerStep prog w pends m (.pendingArm x v kept todo)
        (.settle x .workerPending (.begin x) kept todo) (.foundCancelled x.id w)
  | kept {x : Task} {v : Option V} {kept todo : List (Fut V)}
      (h : (m.cell x.id).state ≠ .cancelled) :
      WorkerStep prog w pends m (.pendingArm x v kept todo) (.retain (kept ++ [⟨x, some v⟩]) todo)
        .tau
  | errArm {x : Task} {q : Payload P} {kept todo : List (Fut V)} :
      WorkerStep prog w pends m (.errArm x q kept todo)
        (.settle x .workerErr (.begin x) kept todo) (.replacePanicked x.id q w)
  | readyArm {x : Task} {kept todo : List (Fut V)} :
      WorkerStep prog w pends m (.readyArm x kept todo)
        (.settle x .workerReady (.begin x) kept todo) (.fetchAdd w)
  | settle {x : Task} {site : Site} {sp sp' : SettlePc} {kept todo : List (Fut V)} {o : Op V P}
      (h : settleNext x site sp = (some sp', o)) :
      WorkerStep prog w pends m (.settle x site sp kept todo) (.settle x site sp' kept todo) o
  | settled {x : Task} {site : Site} {sp : SettlePc} {kept todo : List (Fut V)} {o : Op V P}
      (h : settleNext x site sp = (none, o)) :
      WorkerStep prog w pends m (.settle x site sp kept todo) (.retain kept todo) o
  | emptied : WorkerStep prog w pends m (.check []) (.top []) .tau
  | sleep {f : Fut V} {fs : List (Fut V)} (h : m.workerChannel w = []) :
      WorkerStep prog w pends m (.check (f :: fs)) (.wait (f :: fs)) .tau
  | again {f : Fut V} {fs : List (Fut V)} (h : m.workerChannel w ≠ []) :
      WorkerStep prog w pends m (.check (f :: fs)) (.top (f :: fs)) .tau
  | wake {fs : List (Fut V)} (h : (m.workerSignal w).ready = true) :
      WorkerStep prog w pends m (.wait fs) (.top fs) (.waitWorkerSignal w)

section

variable {prog : Program V P} {w : WorkerId} {pends : Bool} {m : Shared V P}

theorem workerNext_step {p p' : WorkerPc V P} {o : Op V P}
    (h : workerNext prog w pends p m = some (p', o)) : WorkerStep prog w pends m p p' o := by
  cases p with
  | top fs =>
      cases fs with
      | nil =>
          simp only [workerNext] at h
          split at h
          case h_1 hc =>
            cases h
            exact .recv hc
          case h_2 hc =>
            split at h
            case isTrue => cases h
            case isFalse hd =>
              cases h
              exact .exit hc (Bool.eq_false_iff.mpr hd)
      | cons f fs =>
          simp only [workerNext] at h
          split at h
          case h_1 hc =>
            cases h
            exact .tryRecv hc
          case h_2 hc =>
            cases h
            exact .received hc
  | retain kept todo =>
      cases todo with
      | nil =>
          cases h
          exact .retained
      | cons f todo =>
          cases h
          exact .next
  | poll x p kept todo =>
      simp only [workerNext] at h
      split at h
      case h_1 => cases h
      case h_2 hp =>
        cases h
        exact .more hp
      case h_3 hp =>
        cases h
        exact .pending hp
      case h_4 hp =>
        cases h
        exact .err hp
      case h_5 hp =>
        cases h
        exact .ready hp
  | pendingArm x v kept todo =>
      simp only [workerNext] at h
      split at h
      case isTrue hc =>
        cases h
        exact .pendingCancelled (TaskState.beq_cancelled.mp hc)
      case isFalse hc =>
        cases h
        exact .kept fun he => hc (TaskState.beq_cancelled.mpr he)
  | errArm x q kept todo =>
      cases h
      exact .errArm
  | readyArm x kept todo =>
      cases h
      exact .readyArm
  | settle x site sp kept todo =>
      simp only [workerNext] at h
      split at h
      case h_1 hs =>
        cases h
        exact .settle hs
      case h_2 hs =>
        cases h
        exact .settled hs
  | check fs =>
      cases fs with
      | nil =>
          cases h
          exact .emptied
      | cons f fs =>
          simp only [workerNext] at h
          split at h
          case isTrue hc =>
            cases h
            exact .sleep (List.isEmpty_iff.mp hc)
          case isFalse hc =>
            cases h
            exact .again fun he => hc (List.isEmpty_iff.mpr he)
  | wait fs =>
      obtain ⟨g, hg, he⟩ := Option.map_eq_some_iff.mp h
      cases he
      exact .wake (Signal.wait?_eq_some.mp hg).1
  | exited => cases h

end

end MVSync
