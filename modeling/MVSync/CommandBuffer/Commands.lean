import MVSync.CommandBuffer.Chains

/-!
# The commands

The traits of `command_buffers/commands.rs` and the buffered commands that they extend.
Every method of these traits is one call of `Command::add_sync_command` with a closure.

A `BufferedCommand<T>` is consumed by the method that chains the next command to it, so it
stands for all the calls that made it: `BufferedCommand V P T` is that chain of calls, with
the closures.  `BufferedCommand.run` is what the chain does when it is read as a program, one
closure after the other.  `BufferedCommand.calls` is what it records in the buffer, and
`BufferedCommand.functions` is what the recorded tasks call.

A closure prints lines, and it returns or panics.  What it returns is of any type that the
tasks can hand on (`MVSynced`).
-/

namespace MVSync

/-! ## User code -/

/-- A line that is printed. -/
inductive Line where
  /-- `println!`. -/
  | out (text : String)
  /-- `eprintln!`, and the output of `dbg!`. -/
  | err (text : String)
deriving DecidableEq, Repr

/-- What a call of user code does: the lines that it prints, and how it ends. -/
@[ext] structure Act (P T : Type) where
  lines : List Line
  outcome : Except (Payload P) T

namespace Act

variable {P T R : Type}

instance : Monad (Act P) where
  pure t := ⟨[], .ok t⟩
  bind a f :=
    match a.outcome with
    | .ok t => ⟨a.lines ++ (f t).lines, (f t).outcome⟩
    | .error q => ⟨a.lines, .error q⟩

/-- A line is printed. -/
def print (l : Line) : Act P Unit := ⟨[l], .ok ()⟩

/-- `panic!`. -/
def panic (message : String) : Act P T := ⟨[], .error (.message message)⟩

theorem bind_ok {a : Act P T} {t : T} (h : a.outcome = .ok t) (f : T → Act P R) :
    a >>= f = ⟨a.lines ++ (f t).lines, (f t).outcome⟩ := by
  simp only [Bind.bind, h]

theorem bind_error {a : Act P T} {q : Payload P} (h : a.outcome = .error q) (f : T → Act P R) :
    a >>= f = ⟨a.lines, .error q⟩ := by
  simp only [Bind.bind, h]

end Act

/-- `MVSynced`: the values of type `T` are among those that the tasks hand on. -/
class MVSynced (V T : Type) where
  erase : T → V
  restore : V → Option T
  restore_erase : ∀ t, restore (erase t) = some t

instance (V : Type) : MVSynced V V := ⟨id, some, fun _ => rfl⟩

/-- `std::fmt::Display`. -/
class Display (T : Type) where
  /-- `format!("{}", t)`. -/
  fmt : T → String

/-- `std::fmt::Debug`. -/
class Debug (T : Type) where
  /-- `format!("{:?}", t)`. -/
  fmt : T → String
  /-- `format!("{:#?}", t)`. -/
  pretty : T → String

/-! ## Buffered commands -/

/-- `BufferedCommand<T>`, as the calls that made it, with their closures. -/
inductive BufferedCommand (V P : Type) : Type → Type 1 where
  /-- `CommandBufferEntry::add_sync_command`. -/
  | rootSync {T : Type} [MVSynced V T] (function : Act P T) : BufferedCommand V P T
  /-- `CommandBufferEntry::add_command`. -/
  | root {T : Type} [MVSynced V T] (function : Act P T) : BufferedCommand V P T
  /-- `Command::add_sync_command`. -/
  | addSyncCommand {T R : Type} [MVSynced V R] (c : BufferedCommand V P T)
      (function : T → Act P R) : BufferedCommand V P R
  /-- `Command::add_command`. -/
  | addCommand {T R : Type} [MVSynced V R] (c : BufferedCommand V P T)
      (function : T → Act P R) : BufferedCommand V P R

variable {V P T R E : Type}

namespace BufferedCommand

/-- What the chain does when its closures are called one after the other. -/
def run {T : Type} : BufferedCommand V P T → Act P T
  | @rootSync _ _ _ _ f | @root _ _ _ _ f => f
  | @addSyncCommand _ _ _ _ _ c f | @addCommand _ _ _ _ _ c f => c.run >>= f

/-- The number of commands that are chained to the first one. -/
def depth {T : Type} : BufferedCommand V P T → Nat
  | @rootSync _ _ _ _ _ | @root _ _ _ _ _ => 0
  | @addSyncCommand _ _ _ _ _ c _ | @addCommand _ _ _ _ _ c _ => c.depth + 1

/-- What the chain records, when `n` is the number of its first command. -/
def calls {T : Type} (n : TaskId) : BufferedCommand V P T → List Call
  | @rootSync _ _ _ _ _ => [.rootSync]
  | @root _ _ _ _ _ => [.root]
  | @addSyncCommand _ _ _ _ _ c _ => c.calls n ++ [.chainSync (n + c.depth)]
  | @addCommand _ _ _ _ _ c _ => c.calls n ++ [.chain (n + c.depth)]

/-- The type of the chain is one of those that the tasks hand on. -/
@[reducible] def synced {T : Type} : BufferedCommand V P T → MVSynced V T
  | @rootSync _ _ _ i _ | @root _ _ _ i _ => i
  | @addSyncCommand _ _ _ _ i _ _ | @addCommand _ _ _ _ i _ _ => i

/-- What a task calls is handed on. -/
def handOn (i : MVSynced V T) (a : Act P T) : Act P V := ⟨a.lines, a.outcome.map i.erase⟩

/-- What the task of a chained command calls, with what its predecessor returned.  That is
a value of the type of `c`, so the last case does not occur. -/
def chained (c : BufferedCommand V P T) (i : MVSynced V R) (f : T → Act P R) (v : Option V) :
    Act P V :=
  match v.bind c.synced.restore with
  | some t => handOn i (f t)
  | none => .panic ""

/-- What the tasks of the chain call, in order. -/
def functions {T : Type} : BufferedCommand V P T → List (Option V → Act P V)
  | @rootSync _ _ _ i f | @root _ _ _ i f => [fun _ => handOn i f]
  | @addSyncCommand _ _ _ _ i c f | @addCommand _ _ _ _ i c f => c.functions ++ [c.chained i f]

end BufferedCommand

/-! ## `commands.rs` -/

/-- `End::end`. -/
def End.end_ [MVSynced V Unit] (c : BufferedCommand V P T) : BufferedCommand V P Unit :=
  c.addSyncCommand fun _ => pure ()

section

variable [MVSynced V T]

/-- `Print::print`. -/
def Print.print [Display T] (c : BufferedCommand V P T) : BufferedCommand V P T :=
  c.addSyncCommand fun t => do
    Act.print (.out (Display.fmt t))
    pure t

/-- `Dbg::debug`. -/
def Dbg.debug [Debug T] (c : BufferedCommand V P T) : BufferedCommand V P T :=
  c.addSyncCommand fun t => do
    Act.print (.out (Debug.fmt t))
    pure t

/-- `Dbg::dbg`.  The position is the one that `dbg!` has in this function, whoever calls
it. -/
def Dbg.dbg [Debug T] (position : String) (c : BufferedCommand V P T) : BufferedCommand V P T :=
  c.addSyncCommand fun t => do
    Act.print (.err ("[" ++ position ++ "] value = " ++ Debug.pretty t))
    pure t

end

/-! ### `Option` -/

/-- `Option::expect`. -/
def Option.expect (msg : String) : Option T → Act P T
  | some t => pure t
  | none => .panic msg

namespace Unwrap

variable [MVSynced V T]

/-- `Unwrap::unwrap`. -/
def unwrap (c : BufferedCommand V P (Option T)) : BufferedCommand V P T :=
  c.addSyncCommand (Option.expect "called `Option::unwrap()` on a `None` value")

/-- `Unwrap::unwrap_or`. -/
def unwrapOr (default : T) (c : BufferedCommand V P (Option T)) : BufferedCommand V P T :=
  c.addSyncCommand fun t => pure (t.getD default)

/-- `Unwrap::unwrap_or_else`. -/
def unwrapOrElse (default : Act P T) (c : BufferedCommand V P (Option T)) :
    BufferedCommand V P T :=
  c.addSyncCommand fun
    | some t => pure t
    | none => default

/-- `Unwrap::expect`. -/
def expect (msg : String) (c : BufferedCommand V P (Option T)) : BufferedCommand V P T :=
  c.addSyncCommand (Option.expect msg)

end Unwrap

/-! ### `Result` -/

/-- The panic of `Result::unwrap` and its kin. -/
def unwrapFailed [Debug E] (msg : String) (e : E) : Act P T := .panic (msg ++ ": " ++ Debug.fmt e)

/-- `Result::expect`. -/
def Result.expect [Debug E] (msg : String) : Except E T → Act P T
  | .ok t => pure t
  | .error e => unwrapFailed msg e

/-- `Result::expect_err`. -/
def Result.expectErr [Debug T] (msg : String) : Except E T → Act P E
  | .ok t => unwrapFailed msg t
  | .error e => pure e

namespace UnwrapOk

variable [MVSynced V T]

/-- `UnwrapOk::unwrap`. -/
def unwrap [Debug E] (c : BufferedCommand V P (Except E T)) : BufferedCommand V P T :=
  c.addSyncCommand (Result.expect "called `Result::unwrap()` on an `Err` value")

/-- `UnwrapOk::unwrap_or`. -/
def unwrapOr (default : T) (c : BufferedCommand V P (Except E T)) : BufferedCommand V P T :=
  c.addSyncCommand fun
    | .ok t => pure t
    | .error _ => pure default

/-- `UnwrapOk::unwrap_or_else`. -/
def unwrapOrElse (default : E → Act P T) (c : BufferedCommand V P (Except E T)) :
    BufferedCommand V P T :=
  c.addSyncCommand fun
    | .ok t => pure t
    | .error e => default e

/-- `UnwrapOk::expect`. -/
def expect [Debug E] (msg : String) (c : BufferedCommand V P (Except E T)) :
    BufferedCommand V P T :=
  c.addSyncCommand (Result.expect msg)

end UnwrapOk

namespace UnwrapErr

variable [MVSynced V E]

/-- `UnwrapErr::unwrap_err`. -/
def unwrapErr [Debug T] (c : BufferedCommand V P (Except E T)) : BufferedCommand V P E :=
  c.addSyncCommand (Result.expectErr "called `Result::unwrap_err()` on an `Ok` value")

/-- `UnwrapErr::expect_err`. -/
def expectErr [Debug T] (msg : String) (c : BufferedCommand V P (Except E T)) :
    BufferedCommand V P E :=
  c.addSyncCommand (Result.expectErr msg)

end UnwrapErr

/-! ## What the commands do to a chain -/

namespace BufferedCommand

/-- `d` is `c` with further commands. -/
inductive Extends {T : Type} (c : BufferedCommand V P T) :
    {R : Type} → BufferedCommand V P R → Prop where
  | refl : Extends c c
  | addSyncCommand {R S : Type} [MVSynced V S] {d : BufferedCommand V P R}
      {f : R → Act P S} : Extends c d → Extends c (d.addSyncCommand f)
  | addCommand {R S : Type} [MVSynced V S] {d : BufferedCommand V P R}
      {f : R → Act P S} : Extends c d → Extends c (d.addCommand f)

/-- A command that panics halts the chain: nothing is called after it. -/
theorem Extends.halted {c : BufferedCommand V P T} {d : BufferedCommand V P R}
    (h : c.Extends d) {q : Payload P} (hq : c.run.outcome = .error q) :
    d.run = ⟨c.run.lines, .error q⟩ := by
  induction h with
  | refl => exact Act.ext rfl hq
  | addSyncCommand _ ih | addCommand _ ih => rw [run, Act.bind_error (by rw [ih]), ih]

/-- `d` is `c` with commands in between that print what they get and hand it on. -/
inductive Inspects : {T : Type} → BufferedCommand V P T → BufferedCommand V P T → Prop where
  | refl {T : Type} (c : BufferedCommand V P T) : Inspects c c
  | addSyncCommand {T R : Type} [MVSynced V R] {c d : BufferedCommand V P T}
      {f : T → Act P R} : Inspects c d → Inspects (c.addSyncCommand f) (d.addSyncCommand f)
  | addCommand {T R : Type} [MVSynced V R] {c d : BufferedCommand V P T}
      {f : T → Act P R} : Inspects c d → Inspects (c.addCommand f) (d.addCommand f)
  | print {T : Type} [MVSynced V T] [Display T] {c d : BufferedCommand V P T} :
      Inspects c d → Inspects c (Print.print d)
  | debug {T : Type} [MVSynced V T] [Debug T] {c d : BufferedCommand V P T} :
      Inspects c d → Inspects c (Dbg.debug d)
  | dbg {T : Type} [MVSynced V T] [Debug T] {c d : BufferedCommand V P T} (position : String) :
      Inspects c d → Inspects c (Dbg.dbg position d)

/-- A closure that prints a line and hands on what it got. -/
theorem outcome_bind_print (a : Act P T) (line : T → Line) :
    (a >>= fun t => do Act.print (line t); pure t).outcome = a.outcome ∧
      a.lines.Sublist (a >>= fun t => do Act.print (line t); pure t).lines := by
  cases h : a.outcome with
  | ok t =>
      rw [Act.bind_ok h]
      exact ⟨rfl, List.sublist_append_left _ _⟩
  | error q =>
      rw [Act.bind_error h]
      exact ⟨rfl, .refl _⟩

theorem outcome_bind {a b : Act P T} (h : b.outcome = a.outcome ∧ a.lines.Sublist b.lines)
    (f : T → Act P R) :
    (b >>= f).outcome = (a >>= f).outcome ∧ (a >>= f).lines.Sublist (b >>= f).lines := by
  obtain ⟨ho, hl⟩ := h
  cases ha : a.outcome with
  | ok t =>
      rw [Act.bind_ok ha, Act.bind_ok (ho.trans ha)]
      exact ⟨rfl, hl.append_right _⟩
  | error q =>
      rw [Act.bind_error ha, Act.bind_error (ho.trans ha)]
      exact ⟨rfl, hl⟩

/-- Inspecting a chain changes nothing of it but that more is printed. -/
theorem Inspects.run {c d : BufferedCommand V P T} (h : c.Inspects d) :
    d.run.outcome = c.run.outcome ∧ c.run.lines.Sublist d.run.lines := by
  induction h with
  | refl c => exact ⟨rfl, .refl _⟩
  | addSyncCommand _ ih | addCommand _ ih => exact outcome_bind ih _
  | print _ ih | debug _ ih | dbg _ _ ih =>
      obtain ⟨ho, hl⟩ := outcome_bind_print _ _
      exact ⟨ho.trans ih.1, ih.2.trans hl⟩

end BufferedCommand

end MVSync
