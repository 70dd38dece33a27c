import MVSync.Concurrency.System

/-!
# The timer

`timer.rs`: the futures of `Sleep` and the thread that calls their wakers.  They
share a binary heap behind the lock of `QUEUE`, the condition `SIGNAL`, and the
clock.

The timer thread looks at the first entry of the heap under one acquisition of
the lock, decides without the lock, and takes the lock again to pop the entry or
to wait.  A poll pushes its entry under the lock and notifies without it.

`wait` and `wait_timeout` give the lock back and go to sleep in one step.  They
return when they are notified, when the time is up, and for no reason at all, and
take the lock again before they do.  The time of a `wait_timeout` runs from its
call, which is later than the instant that the duration was computed from.
-/

namespace MVSync.Timer

open Concurrency

abbrev SleepId := Nat
abbrev Instant := Nat
abbrev Duration := Nat

/-- `Sleep`. -/
structure Sleep where
  duration : Duration
  when : Instant
  started : Bool
deriving DecidableEq, Repr

/-- `TimerEntry`.  The waker is the one that the poll of a `Sleep` was given. -/
structure TimerEntry where
  when : Instant
  waker : SleepId
deriving DecidableEq, Repr

/-- `Poll<()>`. -/
inductive Poll where
  | ready
  | pending
deriving DecidableEq, Repr

/-- What the threads share. -/
structure Shared where
  clock : Instant
  /-- The heap, as the list of its entries. -/
  queue : List TimerEntry
  /-- The lock of `QUEUE` is held. -/
  locked : Bool
  /-- The timer thread sleeps on `SIGNAL`, with a deadline if the wait is timed. -/
  asleep : Option (Option Instant)
  /-- History: the entries pushed since the timer thread last looked at the heap. -/
  pushed : List TimerEntry
  /-- History: the wakers that the timer thread called. -/
  woken : List SleepId
deriving DecidableEq, Repr

/-- `TimerEntry` is ordered by `when` in reverse, so the greatest entry of the heap
is one that is due first. -/
def Shared.First (m : Shared) (e : TimerEntry) : Prop :=
  e ∈ m.queue ∧ ∀ e' ∈ m.queue, e.when ≤ e'.when

instance (m : Shared) (e : TimerEntry) : Decidable (m.First e) :=
  inferInstanceAs (Decidable (_ ∧ _))

/-- `peek().map(|e| e.when)`. -/
def Shared.peek (m : Shared) : Option Instant := (m.queue.map TimerEntry.when).min?

/-- The atomic operations. -/
inductive Op where
  /-- A read of the clock, or a local step. -/
  | tau
  /-- Time passes. -/
  | tick (d : Duration)
  /-- `QUEUE.lock()`. -/
  | lock
  /-- The lock is given back. -/
  | unlock
  | push (e : TimerEntry)
  /-- `QUEUE.lock().recover().peek()`. -/
  | peek
  /-- `QUEUE.lock().recover().pop()`. -/
  | pop (e : TimerEntry)
  | wake (f : SleepId)
  /-- `SIGNAL.notify_one()`. -/
  | notifyOne
  /-- `SIGNAL.wait(..)`, and `SIGNAL.wait_timeout(..)` with its duration: the lock is
  given back, and the thread sleeps. -/
  | wait (duration : Option Duration)
  /-- The wait ends without a notification. -/
  | wakeUp
deriving DecidableEq, Repr

/-- What an operation does. -/
def Op.exec : Op → Shared → Shared
  | .tau, m => m
  | .tick d, m => { m with clock := m.clock + d }
  | .lock, m => { m with locked := true }
  | .unlock, m => { m with locked := false }
  | .push e, m => { m with queue := e :: m.queue, pushed := e :: m.pushed }
  | .peek, m => { m with pushed := [] }
  | .pop e, m => { m with queue := m.queue.erase e }
  | .wake f, m => { m with woken := f :: m.woken }
  | .notifyOne, m => { m with asleep := none }
  | .wait duration, m =>
      { m with locked := false, asleep := some (duration.map (m.clock + ·)) }
  | .wakeUp, m => { m with asleep := none }

/-! ## The timer thread -/

/-- The local variables of a timed wait. -/
structure Timed where
  t : Instant
  now : Instant
  waitDuration : Duration
deriving DecidableEq, Repr

/-- Where the timer thread is. -/
inductive TimerPc where
  /-- The head of the loop. -/
  | peek
  /-- `match next`, with what `peek` returned. -/
  | decide (next : Option Instant)
  | pop
  | wake (e : TimerEntry)
  /-- The lock that `wait` and `wait_timeout` are given. -/
  | lock (timed : Option Timed)
  /-- `wait` and `wait_timeout`, with the lock. -/
  | wait (timed : Option Timed)
  | asleep
  /-- The wait takes the lock again. -/
  | relock
  /-- `_queue` is dropped. -/
  | unlock
  | panicked
deriving DecidableEq, Repr

/-- What the environment chooses for the timer thread. -/
inductive TimerInput where
  | proceed
  /-- The greatest entry of the heap, of those that compare equal. -/
  | entry (e : TimerEntry)
  /-- The time is up. -/
  | timeout
  /-- The wait returns for no reason. -/
  | spurious
deriving DecidableEq, Repr

/-- `start_timer_thread`. -/
def timerNext (c : TimerInput) : TimerPc → Shared → Option (TimerPc × Op)
  | .peek, m => if m.locked then none else some (.decide m.peek, .peek)
  | .decide (some t), m =>
      let now := m.clock
      if now ≥ t then some (.pop, .tau)
      else
        let waitDuration := if now > t then 0 else t - now
        some (.lock (some ⟨t, now, waitDuration⟩), .tau)
  | .decide none, _ => some (.lock none, .tau)
  | .pop, m =>
      if m.locked then none
      else if m.queue = [] then some (.panicked, .tau)
      else
        match c with
        | .entry e => if m.First e then some (.wake e, .pop e) else none
        | _ => none
  | .wake e, _ => some (.peek, .wake e.waker)
  | .lock timed, m => if m.locked then none else some (.wait timed, .lock)
  | .wait timed, _ => some (.asleep, .wait (timed.map Timed.waitDuration))
  | .asleep, m =>
      match m.asleep, c with
      | none, _ => some (.relock, .tau)
      | some (some deadline), .timeout =>
          if m.clock ≥ deadline then some (.relock, .wakeUp) else none
      | some _, .spurious => some (.relock, .wakeUp)
      | _, _ => none
  | .relock, m => if m.locked then none else some (.unlock, .lock)
  | .unlock, _ => some (.peek, .unlock)
  | .panicked, _ => none

/-- What a step of the timer thread is. -/
inductive TimerStep (m : Shared) : TimerPc → TimerPc → Op → Prop where
  | peek (hl : m.locked = false) : TimerStep m .peek (.decide m.peek) .peek
  | isDue {t : Instant} (hle : t ≤ m.clock) : TimerStep m (.decide (some t)) .pop .tau
  | notDue {t : Instant} (hlt : m.clock < t) :
      TimerStep m (.decide (some t)) (.lock (some ⟨t, m.clock, t - m.clock⟩)) .tau
  | nothing : TimerStep m (.decide none) (.lock none) .tau
  | pop {e : TimerEntry} (hl : m.locked = false) (h : m.First e) :
      TimerStep m .pop (.wake e) (.pop e)
  /-- `pop().unwrap()` panics. -/
  | unwrap (hl : m.locked = false) (hq : m.queue = []) : TimerStep m .pop .panicked .tau
  | wake {e : TimerEntry} : TimerStep m (.wake e) .peek (.wake e.waker)
  | lock {timed : Option Timed} (hl : m.locked = false) :
      TimerStep m (.lock timed) (.wait timed) .lock
  | wait {timed : Option Timed} :
      TimerStep m (.wait timed) .asleep (.wait (timed.map Timed.waitDuration))
  | notified (ha : m.asleep = none) : TimerStep m .asleep .relock .tau
  | timeout {deadline : Instant} (ha : m.asleep = some (some deadline))
      (hle : deadline ≤ m.clock) : TimerStep m .asleep .relock .wakeUp
  | spurious {d : Option Instant} (ha : m.asleep = some d) : TimerStep m .asleep .relock .wakeUp
  | relock (hl : m.locked = false) : TimerStep m .relock .unlock .lock
  | unlock : TimerStep m .unlock .peek .unlock

theorem timerNext_step {c : TimerInput} {p p' : TimerPc} {m : Shared} {o : Op}
    (h : timerNext c p m = some (p', o)) : TimerStep m p p' o := by
  cases p with
  | peek =>
      simp only [timerNext] at h
      split at h
      · cases h
      case isFalse hl =>
        cases h
        exact .peek (Bool.eq_false_iff.mpr hl)
  | decide next =>
      cases next with
      | none =>
          cases h
          exact .nothing
      | some t =>
          simp only [timerNext] at h
          split at h
          case isTrue hle =>
            cases h
            exact .isDue hle
          case isFalse hlt =>
            have hlt : m.clock < t := Nat.lt_of_not_le hlt
            rw [if_neg (Nat.lt_asymm hlt)] at h
            cases h
            exact .notDue hlt
  | pop =>
      simp only [timerNext] at h
      split at h
      · cases h
      case isFalse hl =>
        have hl : m.locked = false := Bool.eq_false_iff.mpr hl
        split at h
        case isTrue hq =>
          cases h
          exact .unwrap hl hq
        case isFalse =>
          split at h
          · split at h
            case isTrue hfirst =>
              cases h
              exact .pop hl hfirst
            case isFalse => cases h
          · cases h
  | wake e =>
      cases h
      exact .wake
  | lock timed =>
      simp only [timerNext] at h
      split at h
      · cases h
      case isFalse hl =>
        cases h
        exact .lock (Bool.eq_false_iff.mpr hl)
  | wait timed =>
      cases h
      exact .wait
  | asleep =>
      simp only [timerNext] at h
      split at h
      case h_1 ha =>
        cases h
        exact .notified ha
      case h_2 ha =>
        split at h
        case isTrue hle =>
          cases h
          exact .timeout ha hle
        case isFalse => cases h
      case h_3 ha =>
        cases h
        exact .spurious ha
      case h_4 => cases h
  | relock =>
      simp only [timerNext] at h
      split at h
      · cases h
      case isFalse hl =>
        cases h
        exact .relock (Bool.eq_false_iff.mpr hl)
  | unlock =>
      cases h
      exact .unlock
  | panicked => cases h

/-! ## The polls -/

/-- Where a `Sleep` is. -/
inductive SleepPc where
  /-- Not polled, with what its last poll returned. -/
  | idle (x : Sleep) (last : Option Poll)
  | lock (x : Sleep)
  | push (x : Sleep)
  | unlock (x : Sleep)
  | notifyOne (x : Sleep)
deriving DecidableEq, Repr

/-- `Sleep::poll`. -/
def sleepNext (f : SleepId) : SleepPc → Shared → Option (SleepPc × Op)
  | .idle x _, m =>
      if !x.started then some (.lock { x with when := m.clock + x.duration, started := true }, .tau)
      else if m.clock ≥ x.when then some (.idle x (some .ready), .tau)
      else some (.idle x (some .pending), .tau)
  | .lock x, m => if m.locked then none else some (.push x, .lock)
  | .push x, _ => some (.unlock x, .push ⟨x.when, f⟩)
  | .unlock x, _ => some (.notifyOne x, .unlock)
  | .notifyOne x, _ => some (.idle x (some .pending), .notifyOne)

/-- What a step of a poll is. -/
inductive SleepStep (f : SleepId) (m : Shared) : SleepPc → SleepPc → Op → Prop where
  /-- The first poll reads the clock. -/
  | first {x : Sleep} {last : Option Poll} (hs : x.started = false) :
      SleepStep f m (.idle x last)
        (.lock { x with when := m.clock + x.duration, started := true }) .tau
  | ready {x : Sleep} {last : Option Poll} (hs : x.started = true) (hle : x.when ≤ m.clock) :
      SleepStep f m (.idle x last) (.idle x (some .ready)) .tau
  | pending {x : Sleep} {last : Option Poll} (hs : x.started = true) (hlt : m.clock < x.when) :
      SleepStep f m (.idle x last) (.idle x (some .pending)) .tau
  | lock {x : Sleep} (hl : m.locked = false) : SleepStep f m (.lock x) (.push x) .lock
  | push {x : Sleep} : SleepStep f m (.push x) (.unlock x) (.push ⟨x.when, f⟩)
  | unlock {x : Sleep} : SleepStep f m (.unlock x) (.notifyOne x) .unlock
  | notifyOne {x : Sleep} :
      SleepStep f m (.notifyOne x) (.idle x (some .pending)) .notifyOne

theorem sleepNext_step {f : SleepId} {p p' : SleepPc} {m : Shared} {o : Op}
    (h : sleepNext f p m = some (p', o)) : SleepStep f m p p' o := by
  cases p with
  | idle x last =>
      cases hs : x.started with
      | false =>
          simp only [sleepNext, hs, Bool.not_false, if_true] at h
          cases h
          exact .first hs
      | true =>
          simp only [sleepNext, hs, Bool.not_true, Bool.false_eq_true, if_false] at h
          split at h
          case isTrue hle =>
            cases h
            exact .ready hs hle
          case isFalse hlt =>
            cases h
            exact .pending hs (Nat.lt_of_not_le hlt)
  | lock x =>
      simp only [sleepNext] at h
      split at h
      · cases h
      case isFalse hl =>
        cases h
        exact .lock (Bool.eq_false_iff.mpr hl)
  | push x =>
      cases h
      exact .push
  | unlock x =>
      cases h
      exact .unlock
  | notifyOne x =>
      cases h
      exact .notifyOne

/-! ## The system -/

/-- The threads.  A `Sleep` is polled by one thread at a time, so it is one thread
here, whichever thread polls it. -/
inductive Tid where
  | timer
  | sleep (f : SleepId)
  | clock
deriving DecidableEq, Repr

/-- The positions of a thread. -/
@[reducible] def Tid.Pc : Tid → Type
  | .timer => TimerPc
  | .sleep _ => SleepPc
  | .clock => Unit

/-- The choices of the environment for a thread.  For the clock it is the time that
passes. -/
@[reducible] def Tid.Input : Tid → Type
  | .timer => TimerInput
  | .sleep _ => Unit
  | .clock => Duration

/-- The timer thread, the futures and the clock. -/
def timer : System Tid Shared Op where
  Pc := Tid.Pc
  Input := Tid.Input
  exec := Op.exec
  next
    | .timer, c, p, m => timerNext c p m
    | .sleep f, _, p, m => sleepNext f p m
    | .clock, d, _, _ => some ((), .tick d)

/-- The state when `INIT` has started the timer thread, for futures that were made
with `duration`. -/
def init (duration : SleepId → Duration) : timer.State where
  mem := ⟨0, [], false, none, [], []⟩
  pc
    | .timer => .peek
    | .sleep f => .idle ⟨duration f, 0, false⟩ none
    | .clock => ()

/-- The position of the timer thread. -/
def thread (s : timer.State) : TimerPc := s.pc .timer

/-- The position of a `Sleep`. -/
def sleep (s : timer.State) (f : SleepId) : SleepPc := s.pc (.sleep f)

section

variable (s : timer.State) (o : Op)

@[simp] theorem thread_move (p : TimerPc) : thread (s.move .timer p o) = p :=
  System.State.move_pc_self s .timer p o

@[simp] theorem thread_move_sleep (f : SleepId) (p : SleepPc) :
    thread (s.move (.sleep f) p o) = thread s :=
  System.State.move_pc_of_ne s (i := .sleep f) p o (by simp)

@[simp] theorem thread_move_clock (p : Unit) : thread (s.move .clock p o) = thread s :=
  System.State.move_pc_of_ne s (i := .clock) p o (by simp)

@[simp] theorem sleep_move (f : SleepId) (p : SleepPc) : sleep (s.move (.sleep f) p o) f = p :=
  System.State.move_pc_self s (.sleep f) p o

theorem sleep_move_of_ne {f g : SleepId} (h : g ≠ f) (p : SleepPc) :
    sleep (s.move (.sleep f) p o) g = sleep s g :=
  System.State.move_pc_of_ne s (i := .sleep f) p o (by simpa using h)

@[simp] theorem sleep_move_timer (f : SleepId) (p : TimerPc) :
    sleep (s.move .timer p o) f = sleep s f :=
  System.State.move_pc_of_ne s (i := .timer) p o (by simp)

@[simp] theorem sleep_move_clock (f : SleepId) (p : Unit) :
    sleep (s.move .clock p o) f = sleep s f :=
  System.State.move_pc_of_ne s (i := .clock) p o (by simp)

end

/-- A step of the timer thread. -/
def turn (c : TimerInput) : timer.Action := ⟨.timer, c⟩

/-- A step of the poll of a `Sleep`. -/
def poll (f : SleepId) : timer.Action := ⟨.sleep f, ()⟩

/-- Time passes. -/
def pass (d : Duration) : timer.Action := ⟨.clock, d⟩

/-- What one step can be. -/
theorem step_cases {s s' : timer.State} {a : timer.Action} (h : s.step a = some s') :
    (∃ c q o, a = turn c ∧ TimerStep s.mem (thread s) q o ∧ s' = s.move .timer q o) ∨
      (∃ f q o, a = poll f ∧ SleepStep f s.mem (sleep s f) q o ∧
        s' = s.move (.sleep f) q o) ∨
      ∃ d, a = pass d ∧ s' = s.move .clock () (.tick d) := by
  obtain ⟨q, o, hn, rfl⟩ := System.State.step_cases h
  obtain ⟨i, c⟩ := a
  cases i with
  | timer => exact .inl ⟨c, q, o, rfl, timerNext_step hn, rfl⟩
  | sleep f => exact .inr (.inl ⟨f, q, o, rfl, sleepNext_step hn, rfl⟩)
  | clock =>
      obtain ⟨rfl, rfl⟩ := Prod.mk.inj (Option.some.inj hn)
      exact .inr (.inr ⟨c, rfl, rfl⟩)

/-- The states that the timer can reach. -/
abbrev Reachable (duration : SleepId → Duration) (s : timer.State) : Prop :=
  System.Reach (init duration) s

end MVSync.Timer
