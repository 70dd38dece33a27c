import MVSync.Timer.Entries

/-!
# The clocks

`clock.rs` over the timer: any number of clocks, each with the thread that owns it, the
futures of `Sleep` that their waits make, and the thread of `timer.rs` that calls the
wakers.

`Clock::wait` is asynchronous.  Polled by an executor it may be polled again at any time,
and dropped between two polls.  `Clock::wait_sync` polls it in the loop of `await_sync`,
which waits for its own signal after a poll that is pending.  The waker of that signal is
what the `Sleep` puts into the heap.

A clock system steps like the timer whose futures are the ones that the clocks will make
(`view_reachable`), so what was proved of the timer holds here.
-/

namespace MVSync.Clocks

open Concurrency
open Timer (Instant Duration SleepId Sleep Poll SleepPc TimerPc TimerInput timerNext sleepNext)
open Function (update)

abbrev OwnerId := Nat

/-- `Clock`.  Instants and durations are in microseconds. -/
structure Clock where
  lastTick : Instant
  tick : Duration
  enabled : Bool
deriving DecidableEq, Repr

namespace Clock

/-- A clock that is made at an instant.  The division panics for `tps = 0`. -/
def make (enabled : Bool) (tps : UInt16) (now : Instant) : Option Clock :=
  if tps = 0 then none else some ⟨now, 1000000 / tps.toNat, enabled⟩

/-- `Clock::new`. -/
def new : UInt16 → Instant → Option Clock := make true

/-- `Clock::new_disabled`. -/
def newDisabled : UInt16 → Instant → Option Clock := make false

/-- `Clock::enable`. -/
def enable (c : Clock) : Clock := { c with enabled := true }

/-- `Clock::disable`. -/
def disable (c : Clock) : Clock := { c with enabled := false }

/-- `self.last_tick.elapsed()`. -/
def elapsed (c : Clock) (now : Instant) : Duration := now - c.lastTick

/-- `Clock::ready`. -/
def ready (c : Clock) (now : Instant) : Bool :=
  if !c.enabled then false else c.elapsed now ≥ c.tick

/-- `Clock::tick`. -/
def doTick (c : Clock) (now : Instant) : Clock :=
  if !c.enabled then c else { c with lastTick := now }

end Clock

/-! ## The shared memory -/

/-- What the threads share. -/
structure Shared where
  timer : Timer.Shared
  /-- How many futures of `Sleep` were made. -/
  made : Nat
  /-- The futures of `Sleep`, and how far their polls are. -/
  sleeps : SleepId → SleepPc
  /-- The flag of the signal whose waker the future was first polled with. -/
  ready : SleepId → Bool
  /-- History: how many waits on an enabled clock have come to their end. -/
  completed : OwnerId → Nat

/-- The atomic operations. -/
inductive Op where
  | tau
  /-- An operation of the timer thread, or time passes. -/
  | timer (o : Timer.Op)
  /-- `Sleep::new`. -/
  | newSleep (d : Duration)
  /-- An operation of the poll of a `Sleep`, which is at `p` then. -/
  | poll (f : SleepId) (p : SleepPc) (o : Timer.Op)
  /-- `Signal::wait` returns. -/
  | takeSignal (f : SleepId)
  /-- The end of a wait: `self.last_tick = Instant::now()`. -/
  | complete (i : OwnerId)
deriving DecidableEq, Repr

/-- The flags after an operation of the timer thread. -/
def wakes (ready : SleepId → Bool) : Timer.Op → SleepId → Bool
  | .wake f => update ready f true
  | _ => ready

/-- What an operation does. -/
def Op.exec : Op → Shared → Shared
  | .tau, m => m
  | .timer o, m => { m with timer := o.exec m.timer, ready := wakes m.ready o }
  | .newSleep d, m =>
      { m with
        made := m.made + 1
        sleeps := update m.sleeps m.made (.idle ⟨d, m.timer.clock, false⟩ none) }
  | .poll f p o, m => { m with timer := o.exec m.timer, sleeps := update m.sleeps f p }
  | .takeSignal f, m => { m with ready := update m.ready f false }
  | .complete i, m => { m with completed := update m.completed i (m.completed i + 1) }

/-! ## The owner of a clock -/

/-- Where the owner of a clock is.  `sync` says that it is in `wait_sync`. -/
inductive OwnerPc where
  /-- The clock is not made yet. -/
  | absent
  | idle (c : Clock)
  /-- `wait` on a clock that is enabled, at its `self.last_tick.elapsed()`. -/
  | wait (sync : Bool) (c : Clock)
  /-- `wait`, at its `async_sleep(wait_time)`. -/
  | newSleep (sync : Bool) (c : Clock) (waitTime : Duration)
  /-- In a poll of the `Sleep`. -/
  | poll (sync : Bool) (c : Clock) (f : SleepId)
  /-- The future of `wait`, between two polls. -/
  | pending (c : Clock) (f : SleepId)
  /-- `await_sync`, at its `signal.wait()`. -/
  | block (c : Clock) (f : SleepId)
  /-- `wait`, at its `self.last_tick = Instant::now()`. -/
  | set (c : Clock)
deriving DecidableEq, Repr

/-- What the owner does next, where it has a choice. -/
inductive OwnerInput where
  | proceed
  | new (tps : UInt16)
  | newDisabled (tps : UInt16)
  | enable
  | disable
  | tick
  | wait
  | waitSync
  /-- The future of `wait` is polled again. -/
  | poll
  /-- The future of `wait` is dropped. -/
  | drop
deriving DecidableEq, Repr

/-- A call of an owner that is idle. -/
def callNext (c : Clock) : OwnerInput → Shared → Option (OwnerPc × Op)
  | .enable, _ => some (.idle c.enable, .tau)
  | .disable, _ => some (.idle c.disable, .tau)
  | .tick, m => some (.idle (c.doTick m.timer.clock), .tau)
  | .wait, _ => some (if !c.enabled then .idle c else .wait false c, .tau)
  | .waitSync, _ => some (if !c.enabled then .idle c else .wait true c, .tau)
  | _, _ => none

/-- What follows an operation of the poll of a `Sleep`. -/
def OwnerPc.polled (sync : Bool) (c : Clock) (f : SleepId) : SleepPc → OwnerPc
  | .idle _ (some .ready) => .set c
  | .idle _ _ => if sync then .block c f else .pending c f
  | _ => .poll sync c f

/-- One step of the owner of a clock. -/
def ownerNext (i : OwnerId) (a : OwnerInput) : OwnerPc → Shared → Option (OwnerPc × Op)
  | .absent, m =>
      match a with
      | .new tps => (Clock.new tps m.timer.clock).map fun c => (.idle c, .tau)
      | .newDisabled tps => (Clock.newDisabled tps m.timer.clock).map fun c => (.idle c, .tau)
      | _ => none
  | .idle c, m => callNext c a m
  | .wait sync c, m =>
      let elapsed := c.elapsed m.timer.clock
      if elapsed ≥ c.tick then some (.set c, .tau)
      else some (.newSleep sync c (c.tick - elapsed), .tau)
  | .newSleep sync c waitTime, m => some (.poll sync c m.made, .newSleep waitTime)
  | .poll sync c f, m =>
      (sleepNext f (m.sleeps f) m.timer).map fun (p, o) => (.polled sync c f p, .poll f p o)
  | .pending c f, _ =>
      match a with
      | .poll => some (.poll false c f, .tau)
      | .drop => some (.idle c, .tau)
      | _ => none
  | .block c f, m => if m.ready f then some (.poll true c f, .takeSignal f) else none
  | .set c, m => some (.idle { c with lastTick := m.timer.clock }, .complete i)

/-- What a step of the owner of a clock is. -/
inductive OwnerStep (i : OwnerId) (m : Shared) : OwnerPc → OwnerPc → Op → Prop where
  | new {c : Clock} (hl : c.lastTick = m.timer.clock) (ht : 0 < c.tick) :
      OwnerStep i m .absent (.idle c) .tau
  /-- `enable` and `disable`. -/
  | switch {c : Clock} (b : Bool) : OwnerStep i m (.idle c) (.idle { c with enabled := b }) .tau
  | tick {c : Clock} : OwnerStep i m (.idle c) (.idle { c with lastTick := m.timer.clock }) .tau
  /-- A call on a clock that is not enabled. -/
  | disabled {c : Clock} : OwnerStep i m (.idle c) (.idle c) .tau
  | wait {c : Clock} (sync : Bool) : OwnerStep i m (.idle c) (.wait sync c) .tau
  | due {sync : Bool} {c : Clock} (h : c.tick ≤ c.elapsed m.timer.clock) :
      OwnerStep i m (.wait sync c) (.set c) .tau
  | early {sync : Bool} {c : Clock} (h : c.elapsed m.timer.clock < c.tick) :
      OwnerStep i m (.wait sync c) (.newSleep sync c (c.tick - c.elapsed m.timer.clock)) .tau
  | newSleep {sync : Bool} {c : Clock} {d : Duration} :
      OwnerStep i m (.newSleep sync c d) (.poll sync c m.made) (.newSleep d)
  | poll {sync : Bool} {c : Clock} {f : SleepId} {p : SleepPc} {o : Timer.Op}
      (h : Timer.SleepStep f m.timer (m.sleeps f) p o) :
      OwnerStep i m (.poll sync c f) (.polled sync c f p) (.poll f p o)
  | again {c : Clock} {f : SleepId} : OwnerStep i m (.pending c f) (.poll false c f) .tau
  | drop {c : Clock} {f : SleepId} : OwnerStep i m (.pending c f) (.idle c) .tau
  | woken {c : Clock} {f : SleepId} (h : m.ready f = true) :
      OwnerStep i m (.block c f) (.poll true c f) (.takeSignal f)
  | complete {c : Clock} :
      OwnerStep i m (.set c) (.idle { c with lastTick := m.timer.clock }) (.complete i)

theorem callNext_step {i : OwnerId} {a : OwnerInput} {c : Clock} {p' : OwnerPc} {m : Shared}
    {o : Op} (h : callNext c a m = some (p', o)) : OwnerStep i m (.idle c) p' o := by
  cases a with
  | enable | disable =>
      cases h
      exact .switch _
  | tick =>
      simp only [callNext, Clock.doTick] at h
      split at h
      · cases h
        exact .disabled
      · cases h
        exact .tick
  | wait | waitSync =>
      simp only [callNext] at h
      split at h
      · cases h
        exact .disabled
      · cases h
        exact .wait _
  | _ => cases h

theorem Clock.make_cases {enabled : Bool} {tps : UInt16} {now : Instant} {c : Clock}
    (h : Clock.make enabled tps now = some c) :
    c.lastTick = now ∧ 0 < c.tick := by
  simp only [Clock.make, Option.ite_none_left_eq_some] at h
  obtain ⟨h₀, hc⟩ := h
  cases hc
  have hlt : tps.toNat < 65536 := tps.toNat_lt
  have hpos : 0 < tps.toNat := Nat.pos_of_ne_zero fun he => h₀ (UInt16.toNat_inj.mp he)
  exact ⟨rfl, Nat.div_pos (by omega) hpos⟩

theorem ownerNext_step {i : OwnerId} {a : OwnerInput} {p p' : OwnerPc} {m : Shared} {o : Op}
    (h : ownerNext i a p m = some (p', o)) : OwnerStep i m p p' o := by
  cases p with
  | absent =>
      cases a with
      | new tps | newDisabled tps =>
          obtain ⟨c, hc, he⟩ := Option.map_eq_some_iff.mp h
          cases he
          exact .new (Clock.make_cases hc).1 (Clock.make_cases hc).2
      | _ => cases h
  | idle c => exact callNext_step h
  | wait sync c =>
      simp only [ownerNext] at h
      split at h
      case isTrue hle =>
        cases h
        exact .due hle
      case isFalse hlt =>
        cases h
        exact .early (Nat.lt_of_not_le hlt)
  | newSleep sync c d =>
      cases h
      exact .newSleep
  | poll sync c f =>
      obtain ⟨⟨q, o'⟩, hq, he⟩ := Option.map_eq_some_iff.mp h
      cases he
      exact .poll (Timer.sleepNext_step hq)
  | pending c f =>
      cases a with
      | poll =>
          cases h
          exact .again
      | drop =>
          cases h
          exact .drop
      | _ => cases h
  | block c f =>
      simp only [ownerNext, Option.ite_none_right_eq_some] at h
      obtain ⟨hr, he⟩ := h
      cases he
      exact .woken hr
  | set c =>
      cases h
      exact .complete

/-! ## The system -/

/-- The threads. -/
inductive Tid where
  | timer
  | owner (i : OwnerId)
  | time
deriving DecidableEq, Repr

/-- The positions of a thread. -/
@[reducible] def Tid.Pc : Tid → Type
  | .timer => TimerPc
  | .owner _ => OwnerPc
  | .time => Unit

/-- The choices of the environment for a thread.  For the time it is how much of it
passes. -/
@[reducible] def Tid.Input : Tid → Type
  | .timer => TimerInput
  | .owner _ => OwnerInput
  | .time => Duration

/-- The timer thread, the owners of the clocks, and time. -/
def clocks : System Tid Shared Op where
  Pc := Tid.Pc
  Input := Tid.Input
  exec := Op.exec
  next
    | .timer, c, p, m => (timerNext c p m.timer).map fun (p', o) => (p', .timer o)
    | .owner i, a, p, m => ownerNext i a p m
    | .time, d, _, _ => some ((), .timer (.tick d))

/-- The state before the first clock is made. -/
def init : clocks.State where
  mem := ⟨⟨0, [], false, none, [], []⟩, 0, fun _ => .idle ⟨0, 0, false⟩ none, fun _ => false,
    fun _ => 0⟩
  pc
    | .timer => .peek
    | .owner _ => .absent
    | .time => ()

/-- The position of the timer thread. -/
def thread (s : clocks.State) : TimerPc := s.pc .timer

/-- The position of the owner of a clock. -/
def owner (s : clocks.State) (i : OwnerId) : OwnerPc := s.pc (.owner i)

section

variable (s : clocks.State) (o : Op)

@[simp] theorem thread_move (p : TimerPc) : thread (s.move .timer p o) = p :=
  System.State.move_pc_self s .timer p o

@[simp] theorem thread_move_owner (i : OwnerId) (p : OwnerPc) :
    thread (s.move (.owner i) p o) = thread s :=
  System.State.move_pc_of_ne s (i := .owner i) p o (by simp)

@[simp] theorem thread_move_time (p : Unit) : thread (s.move .time p o) = thread s :=
  System.State.move_pc_of_ne s (i := .time) p o (by simp)

@[simp] theorem owner_move (i : OwnerId) (p : OwnerPc) : owner (s.move (.owner i) p o) i = p :=
  System.State.move_pc_self s (.owner i) p o

theorem owner_move_of_ne {i j : OwnerId} (h : j ≠ i) (p : OwnerPc) :
    owner (s.move (.owner i) p o) j = owner s j :=
  System.State.move_pc_of_ne s (i := .owner i) p o (by simpa using h)

@[simp] theorem owner_move_timer (i : OwnerId) (p : TimerPc) :
    owner (s.move .timer p o) i = owner s i :=
  System.State.move_pc_of_ne s (i := .timer) p o (by simp)

@[simp] theorem owner_move_time (i : OwnerId) (p : Unit) :
    owner (s.move .time p o) i = owner s i :=
  System.State.move_pc_of_ne s (i := .time) p o (by simp)

end

/-- A step of the timer thread. -/
def turn (c : TimerInput) : clocks.Action := ⟨.timer, c⟩

/-- A step of the owner of a clock. -/
def call (i : OwnerId) (a : OwnerInput) : clocks.Action := ⟨.owner i, a⟩

/-- Time passes. -/
def pass (d : Duration) : clocks.Action := ⟨.time, d⟩

/-- What a step of the timer thread is. -/
theorem step_turn {s s' : clocks.State} {b : TimerInput} (h : s.step (turn b) = some s') :
    ∃ q o, timerNext b (thread s) s.mem.timer = some (q, o) ∧
      s' = s.move .timer q (.timer o) := by
  obtain ⟨q, o, hn, rfl⟩ := System.State.step_cases h
  obtain ⟨⟨q', o'⟩, hq, he⟩ := Option.map_eq_some_iff.mp hn
  cases he
  exact ⟨_, _, hq, rfl⟩

/-- What a step of an owner is. -/
theorem step_call {s s' : clocks.State} {i : OwnerId} {b : OwnerInput}
    (h : s.step (call i b) = some s') :
    ∃ q o, ownerNext i b (owner s i) s.mem = some (q, o) ∧ s' = s.move (.owner i) q o := by
  obtain ⟨q, o, hn, rfl⟩ := System.State.step_cases h
  exact ⟨q, o, hn, rfl⟩

/-- What one step can be. -/
theorem step_cases {s s' : clocks.State} {a : clocks.Action} (h : s.step a = some s') :
    (∃ c q o, a = turn c ∧ timerNext c (thread s) s.mem.timer = some (q, o) ∧
        s' = s.move .timer q (.timer o)) ∨
      (∃ i b q o, a = call i b ∧ OwnerStep i s.mem (owner s i) q o ∧
        s' = s.move (.owner i) q o) ∨
      ∃ d, a = pass d ∧ s' = s.move .time () (.timer (.tick d)) := by
  obtain ⟨i, c⟩ := a
  cases i with
  | timer =>
      obtain ⟨q, o, hq, rfl⟩ := step_turn h
      exact .inl ⟨c, q, o, rfl, hq, rfl⟩
  | owner i =>
      obtain ⟨q, o, hn, rfl⟩ := step_call h
      exact .inr (.inl ⟨i, c, q, o, rfl, ownerNext_step hn, rfl⟩)
  | time =>
      obtain ⟨q, o, hn, rfl⟩ := System.State.step_cases h
      obtain ⟨rfl, rfl⟩ := Prod.mk.inj (Option.some.inj hn)
      exact .inr (.inr ⟨c, rfl, rfl⟩)

/-- The states that the clocks can reach. -/
abbrev Reachable (s : clocks.State) : Prop := System.Reach init s

end MVSync.Clocks
