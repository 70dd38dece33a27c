import MVSync.Concurrency.System
import MVSync.Pool.Caller
import MVSync.Pool.Dispatcher
import MVSync.Pool.Worker

/-!
# The pool

One `MVSync`: its dispatcher, its workers and its callers over their shared
memory.  With `thread_count = 0` nothing is ever sent, so the dispatcher and the
workers stay at their first position and the callers run the tasks.
-/

namespace MVSync

open Concurrency

variable {V P : Type}

/-- The positions of a thread. -/
@[reducible] def Tid.Pc (V P : Type) : Tid → Type
  | .dispatcher => DispatcherPc P
  | .worker _ => WorkerPc V P
  | .caller _ => CallerPc V P

/-- The choices of the environment for a thread.  For a worker it is whether the
user code it runs ends pending. -/
@[reducible] def Tid.Input : Tid → Type
  | .dispatcher => Unit
  | .worker _ => Bool
  | .caller _ => CallerInput

/-- The threads of one `MVSync` over their shared memory. -/
def pool (cfg : Specs) (prog : Program V P) : System Tid (Shared V P) (Op V P) where
  Pc := Tid.Pc V P
  Input := Tid.Input
  exec := Op.exec
  next
    | .dispatcher, _, p, m => dispatcherNext cfg p m
    | .worker w, pends, p, m => workerNext prog w pends p m
    | .caller e, c, p, m => callerNext cfg prog e c p m

/-- The state when `MVSync::labelled` returns. -/
def poolInit (cfg : Specs) (prog : Program V P) : (pool cfg prog).State where
  mem := .init cfg
  pc
    | .dispatcher => .top []
    | .worker _ => .top []
    | .caller _ => .idle

namespace Pool

variable {cfg : Specs} {prog : Program V P}

/-- The position of the dispatcher. -/
def dispatcher (s : (pool cfg prog).State) : DispatcherPc P := s.pc .dispatcher

/-- The position of a worker. -/
def worker (s : (pool cfg prog).State) (w : WorkerId) : WorkerPc V P := s.pc (.worker w)

/-- The position of a caller. -/
def caller (s : (pool cfg prog).State) (e : CallerId) : CallerPc V P := s.pc (.caller e)

/-! A step of a thread moves that thread only. -/

section

variable (s : (pool cfg prog).State) (o : Op V P)

@[simp] theorem dispatcher_move (p : DispatcherPc P) :
    dispatcher (s.move .dispatcher p o) = p := System.State.move_pc_self s .dispatcher p o

@[simp] theorem dispatcher_move_worker (w : WorkerId) (p : WorkerPc V P) :
    dispatcher (s.move (.worker w) p o) = dispatcher s :=
  System.State.move_pc_of_ne s (i := .worker w) p o nofun

@[simp] theorem dispatcher_move_caller (e : CallerId) (p : CallerPc V P) :
    dispatcher (s.move (.caller e) p o) = dispatcher s :=
  System.State.move_pc_of_ne s (i := .caller e) p o nofun

@[simp] theorem worker_move (w : WorkerId) (p : WorkerPc V P) :
    worker (s.move (.worker w) p o) w = p := System.State.move_pc_self s (.worker w) p o

@[simp] theorem caller_move (e : CallerId) (p : CallerPc V P) :
    caller (s.move (.caller e) p o) e = p := System.State.move_pc_self s (.caller e) p o

theorem caller_move_of_ne {e' e : CallerId} (h : e ≠ e') (p : CallerPc V P) :
    caller (s.move (.caller e') p o) e = caller s e :=
  System.State.move_pc_of_ne s (i := .caller e') p o (by simpa using h)

@[simp] theorem caller_move_dispatcher (e : CallerId) (p : DispatcherPc P) :
    caller (s.move .dispatcher p o) e = caller s e :=
  System.State.move_pc_of_ne s (i := .dispatcher) p o nofun

@[simp] theorem caller_move_worker (e : CallerId) (w : WorkerId) (p : WorkerPc V P) :
    caller (s.move (.worker w) p o) e = caller s e :=
  System.State.move_pc_of_ne s (i := .worker w) p o nofun

theorem worker_move_of_ne {v w : WorkerId} (h : w ≠ v) (p : WorkerPc V P) :
    worker (s.move (.worker v) p o) w = worker s w :=
  System.State.move_pc_of_ne s (i := .worker v) p o (by simpa using h)

@[simp] theorem worker_move_dispatcher (w : WorkerId) (p : DispatcherPc P) :
    worker (s.move .dispatcher p o) w = worker s w :=
  System.State.move_pc_of_ne s (i := .dispatcher) p o nofun

@[simp] theorem worker_move_caller (w : WorkerId) (e : CallerId) (p : CallerPc V P) :
    worker (s.move (.caller e) p o) w = worker s w :=
  System.State.move_pc_of_ne s (i := .caller e) p o nofun

end

/-- A step of the dispatcher. -/
def dispatch : (pool cfg prog).Action := ⟨.dispatcher, ()⟩

/-- A step of a worker. -/
def work (w : WorkerId) (pends : Bool) : (pool cfg prog).Action := ⟨.worker w, pends⟩

/-- A step of a caller. -/
def call (e : CallerId) (c : CallerInput) : (pool cfg prog).Action := ⟨.caller e, c⟩

/-- What one step of the pool can be. -/
theorem step_cases {s s' : (pool cfg prog).State} {a : (pool cfg prog).Action}
    (h : s.step a = some s') :
    (∃ q o, a = dispatch ∧ dispatcherNext cfg (dispatcher s) s.mem = some (q, o) ∧
        s' = s.move .dispatcher q o) ∨
      (∃ w pends q o, a = work w pends ∧ workerNext prog w pends (worker s w) s.mem = some (q, o) ∧
        s' = s.move (.worker w) q o) ∨
      ∃ e c q o, a = call e c ∧ callerNext cfg prog e c (caller s e) s.mem = some (q, o) ∧
        s' = s.move (.caller e) q o := by
  obtain ⟨q, o, hn, rfl⟩ := System.State.step_cases h
  obtain ⟨i, c⟩ := a
  cases i with
  | dispatcher => exact .inl ⟨q, o, rfl, hn, rfl⟩
  | worker w => exact .inr (.inl ⟨w, c, q, o, rfl, hn, rfl⟩)
  | caller e => exact .inr (.inr ⟨e, c, q, o, rfl, hn, rfl⟩)

/-- The states that the pool can reach. -/
abbrev Reachable (s : (pool cfg prog).State) : Prop := System.Reach (poolInit cfg prog) s

/-- A schedule: caller `e` submits the tasks `ts`. -/
def submits (e : CallerId) (ts : List TaskId) : List (pool cfg prog).Action :=
  call e (.submitAll ts) :: List.replicate (ts.length + 1) (call e .proceed)

/-- A schedule: the dispatcher and the first worker take `n` turns. -/
def turns (n : Nat) : List (pool cfg prog).Action :=
  (List.replicate n [dispatch, work 0 false]).flatten

end Pool

/-- A pool with one worker that takes one task at a time. -/
def Specs.one : Specs := ⟨1, 1, []⟩

end MVSync
