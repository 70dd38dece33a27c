import Mathlib.Logic.Function.Basic
import MVSync.Block

/-!
# Tasks

The data of `task.rs` and `sync.rs`.

A task is created with a state cell, a result buffer and a completion signal of
its own, so all three are named by the identifier of the task.  The field
`self_state` is the cell of the task itself.  The field `state` is the cell of
the predecessor, or a cell that is `Ready` for ever when there is none.  The
first entry of `signal` is the completion signal, the second is the queue
signal of the `MVSync` that created the task.

A panic payload is a `Box<dyn Any + Send>`.  Three kinds of payload occur: the
unit value that `TaskState::take` boxes, the message of a `panic!` or an
`unwrap` of this crate, and whatever a task body panics with.
-/

namespace MVSync

abbrev TaskId := Nat
abbrev SemId := Nat
abbrev FenceId := Nat
abbrev WorkerId := Nat
abbrev CallerId := Nat
abbrev Label := String

/-! ## Panic payloads and task states -/

/-- The payload of a panic. -/
inductive Payload (P : Type) where
  /-- `Box::new(())`. -/
  | unit
  /-- A panic of this crate. -/
  | message (text : String)
  /-- A panic of a task body. -/
  | user (p : P)
deriving DecidableEq, Repr

/-- `TaskState`. -/
inductive TaskState (P : Type) where
  | pending
  | ready
  | panicked (p : Payload P)
  | cancelled
deriving DecidableEq, Repr

namespace TaskState

variable {P : Type}

/-- `PartialEq for TaskState`: payloads are not compared. -/
instance : BEq (TaskState P) where
  beq
    | .pending, .pending => true
    | .ready, .ready => true
    | .panicked _, .panicked _ => true
    | .cancelled, .cancelled => true
    | _, _ => false

@[simp] theorem beq_pending {st : TaskState P} : (st == .pending) = true ↔ st = .pending := by
  cases st <;> simp [BEq.beq]

@[simp] theorem beq_cancelled {st : TaskState P} :
    (st == .cancelled) = true ↔ st = .cancelled := by
  cases st <;> simp [BEq.beq]

@[simp] theorem bne_pending {st : TaskState P} : (st != .pending) = true ↔ st ≠ .pending := by
  simp [bne, ← Bool.not_eq_true]

/-- The test of `Task::is_panicked`. -/
def isPanicked : TaskState P → Bool
  | .panicked _ => true
  | _ => false

@[simp] theorem isPanicked_iff {st : TaskState P} :
    st.isPanicked = true ↔ ∃ p, st = .panicked p := by
  cases st <;> simp [isPanicked]

/-- `TaskState::take`.  It leaves the cell as it is, and what it returns for a
panicked task is a fresh unit payload. -/
def take : TaskState P → TaskState P
  | .pending => .pending
  | .ready => .ready
  | .panicked _ => .panicked .unit
  | .cancelled => .cancelled

theorem take_eq_panicked {st : TaskState P} {q : Payload P} :
    st.take = .panicked q ↔ q = .unit ∧ ∃ p, st = .panicked p := by
  cases st <;> simp [take, eq_comm]

end TaskState

/-- `TaskResult`. -/
inductive TaskResult (V P : Type) where
  | returned (v : V)
  | panicked (p : Payload P)
  | cancelled
deriving DecidableEq, Repr

/-! ## Tasks -/

/-- The future of a task, by the constructor of `Task` that built it. -/
inductive Inner where
  /-- `Task::from_function`. -/
  | fromFunction
  /-- `Task::from_async`. -/
  | fromAsync
  /-- `Task::from_future`. -/
  | fromFuture
  /-- `Task::from_continuation`, with the task whose handle it owns. -/
  | fromContinuation (predecessor : TaskId)
  /-- `Task::from_async_continuation`, with the task whose handle it owns. -/
  | fromAsyncContinuation (predecessor : TaskId)
deriving DecidableEq, Repr

/-- The task whose handle the future owns. -/
def Inner.predecessor : Inner → Option TaskId
  | .fromContinuation p | .fromAsyncContinuation p => some p
  | _ => none

/-- Whether the future awaits user code, so that a poll can be pending. -/
def Inner.awaits : Inner → Bool
  | .fromFunction | .fromContinuation _ => false
  | _ => true

/-- `SemaphoreUsage`. -/
inductive SemaphoreUsage where
  /-- Wait for the semaphore to be signaled. -/
  | wait
  /-- Signal the semaphore upon completion. -/
  | signal
deriving DecidableEq, Repr

/-- `Task`.  `home` says that the second signal of the task is the one of the
queue that is modelled, which holds when the `MVSync` of that queue created the
task. -/
structure Task where
  id : TaskId
  inner : Inner
  wait : List SemId
  semaphores : List SemId
  preferredThread : Option Label
  notOn : List Label
  home : Bool
deriving DecidableEq, Repr

namespace Task

/-- `Task::bind_semaphore`. -/
def bindSemaphore (x : Task) (semaphore : SemId) : SemaphoreUsage → Task
  | .wait => { x with wait := x.wait ++ [semaphore] }
  | .signal => { x with semaphores := x.semaphores ++ [semaphore] }

/-- `Task::bind_fence`: the fence is bound to the completion signal of the
task. -/
def bindFence (x : Task) (fence : FenceId) (bound : FenceId → Option TaskId) :
    FenceId → Option TaskId := Function.update bound fence (some x.id)

/-- `Task::set_preferred_thread`. -/
def setPreferredThread (x : Task) (thread : Label) : Task :=
  { x with preferredThread := some thread }

/-- `Task::remove_preferred_thread`. -/
def removePreferredThread (x : Task) : Task := { x with preferredThread := none }

/-- `Task::clear_not_on`. -/
def clearNotOn (x : Task) : Task := { x with notOn := [] }

end Task

/-! ## Programs -/

/-- What the user of the library built: every task as it was when it left the
user's hands, what its body does, and the task each fence was bound to last.

A body is given by its outcome on the value it is invoked with, which is `none`
when there is no predecessor.  It is invoked once, so a body that reads the
outside world is one whose outcome there is the one it had.  What it does on the
way (submitting, cancelling or waiting for other tasks) is done by the callers
of the pool, which move between its first and its last step.

A handle is moved into the continuation that is built from it, so a task is the
predecessor of at most one other: `succ` names it.  Identifiers are given out in
the order of creation, so a predecessor has the smaller one. -/
structure Program (V P : Type) where
  inner : TaskId → Inner
  wait : TaskId → List SemId
  semaphores : TaskId → List SemId
  preferredThread : TaskId → Option Label
  notOn : TaskId → List Label
  home : TaskId → Bool
  fence : FenceId → Option TaskId
  body : TaskId → Option V → Except (Payload P) V
  succ : TaskId → Option TaskId
  succ_iff : ∀ p t, succ p = some t ↔ (inner t).predecessor = some p
  predecessor_lt : ∀ t p, (inner t).predecessor = some p → p < t

namespace Program

variable {V P : Type} (prog : Program V P)

/-- The predecessor of a task. -/
def pred (t : TaskId) : Option TaskId := (prog.inner t).predecessor

/-- The task as the user submits it. -/
def task (t : TaskId) : Task where
  id := t
  inner := prog.inner t
  wait := prog.wait t
  semaphores := prog.semaphores t
  preferredThread := prog.preferredThread t
  notOn := prog.notOn t
  home := prog.home t

/-- `x` is a task of the program, up to its thread preferences. -/
structure Built (x : Task) : Prop where
  inner : x.inner = prog.inner x.id
  wait : x.wait = prog.wait x.id
  semaphores : x.semaphores = prog.semaphores x.id
  home : x.home = prog.home x.id

variable {prog}

theorem pred_succ {t p : TaskId} : prog.pred t = some p ↔ prog.succ p = some t :=
  (prog.succ_iff p t).symm

/-- A task has at most one successor. -/
theorem pred_unique {t u p : TaskId} (ht : prog.pred t = some p) (hu : prog.pred u = some p) :
    t = u := by
  rw [pred_succ] at ht hu
  exact Option.some.inj (ht.symm.trans hu)

theorem pred_lt {t p : TaskId} (h : prog.pred t = some p) : p < t := prog.predecessor_lt t p h

theorem built_task (t : TaskId) : prog.Built (prog.task t) := ⟨rfl, rfl, rfl, rfl⟩

theorem Built.setPreferredThread {x : Task} (h : prog.Built x) (l : Label) :
    prog.Built (x.setPreferredThread l) := ⟨h.inner, h.wait, h.semaphores, h.home⟩

theorem Built.removePreferredThread {x : Task} (h : prog.Built x) :
    prog.Built x.removePreferredThread := ⟨h.inner, h.wait, h.semaphores, h.home⟩

theorem Built.clearNotOn {x : Task} (h : prog.Built x) : prog.Built x.clearNotOn :=
  ⟨h.inner, h.wait, h.semaphores, h.home⟩

theorem Built.pred {x : Task} (h : prog.Built x) : x.inner.predecessor = prog.pred x.id := by
  rw [h.inner, Program.pred]

end Program

section

variable {V P : Type}

/-! ## One chain -/

/-- The futures of the chain `0, …, n`, and of further tasks without a
predecessor. -/
def chainInner (async : Bool) (n : Nat) : TaskId → Inner
  | 0 => if async then .fromAsync else .fromFunction
  | p + 1 =>
      if p < n then if async then .fromAsyncContinuation p else .fromContinuation p
      else if async then .fromAsync else .fromFunction

/-- The program that is one chain `0, …, n`, without semaphores, thread
preferences and fences. -/
def Program.chain (async : Bool) (n : Nat)
    (body : TaskId → Option V → Except (Payload P) V) : Program V P where
  inner := chainInner async n
  wait _ := []
  semaphores _ := []
  preferredThread _ := none
  notOn _ := []
  home _ := true
  fence _ := none
  body := body
  succ p := if p < n then some (p + 1) else none
  succ_iff p t := by
    cases t with
    | zero =>
        cases async <;> simp [chainInner, Inner.predecessor]
    | succ t =>
        by_cases ht : t < n <;> cases async <;>
          simp [chainInner, ht, Inner.predecessor] <;> grind
  predecessor_lt t p h := by
    cases t with
    | zero => cases async <;> simp [chainInner, Inner.predecessor] at h
    | succ t =>
        have hp : p = t := by
          by_cases ht : t < n <;> cases async <;>
            simp [chainInner, ht, Inner.predecessor] at h <;> exact h.symm
        exact hp ▸ Nat.lt_succ_self t

end

/-! ## Configuration -/

/-- `MVSyncSpecs`, with the labels given to `MVSync::labelled`. -/
structure Specs where
  threadCount : UInt32
  workersPerThread : UInt32
  labels : List Label
deriving DecidableEq, Repr

/-- The threads of the pool. -/
def Specs.threads (cfg : Specs) : List WorkerId := List.range cfg.threadCount.toNat

/-- `WorkerThread::get_label`: the threads are labelled in order, and the labels
past the last thread are dropped. -/
def Specs.getLabel (cfg : Specs) (w : WorkerId) : Option Label :=
  if w < cfg.threadCount.toNat then cfg.labels[w]? else none

end MVSync
