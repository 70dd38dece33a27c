import MVSync.Block
import MVSync.Concurrency.System

/-!
# The wakers of a signal

One `Signal` of `block.rs` that any number of threads wait for, wake and poll.  A
`SignalFuture` registers its waker with its first poll and never again.  A wake
drains the list, and a synchronous `wait` may lower the flag before the future is
polled again: then the future is pending, and no wake will ever call its waker.
The same happens when a future that is pending is polled with another waker.

Wakers that are equivalent (`Waker::will_wake`) are equal here.
-/

namespace MVSync.Wakers

open Concurrency

abbrev ThreadId := Nat
abbrev FutureId := Nat

variable {W : Type}

/-- What the threads share: the signal, and the futures that `wait_async` made. -/
structure Shared (W : Type) where
  signal : Signal W
  /-- The field `started` of every `SignalFuture`. -/
  started : FutureId → Bool
  /-- History: the waker of the last poll of a future, if that poll returned `Pending`
  and the signal was not woken since. -/
  pending : FutureId → Option W
  /-- History: the wakers of the first polls since the signal was woken. -/
  firstPolls : List W

/-- The atomic operations. -/
inductive Op (W : Type) where
  /-- `Signal::ready`, or the call of `Signal::wait`. -/
  | tau
  /-- `SignalFuture::poll`. -/
  | poll (f : FutureId) (w : W)
  /-- `Signal::wake`. -/
  | wake
  /-- `Signal::wait` returns. -/
  | wait
deriving DecidableEq, Repr

open Function (update)

/-- What an operation does. -/
def Op.exec : Op W → Shared W → Shared W
  | .tau, m => m
  | .poll f w, m =>
      let (ready, signal, started) := m.signal.poll (m.started f) w
      { signal := signal
        started := update m.started f started
        pending := update m.pending f (if ready then none else some w)
        firstPolls := if ready || m.started f then m.firstPolls else m.firstPolls ++ [w] }
  | .wake, m => { m with signal := m.signal.wake.1, pending := fun _ => none, firstPolls := [] }
  | .wait, m => { m with signal := { m.signal with ready := false } }

/-- Where a thread is. -/
inductive Pc where
  | idle
  /-- In the loop of `Signal::wait`. -/
  | wait
deriving DecidableEq, Repr

/-- The next call of a thread that is idle. -/
inductive Input (W : Type) where
  | proceed
  | poll (f : FutureId) (w : W)
  | wake
  | wait
  | ready
deriving DecidableEq, Repr

/-- One step of a thread. -/
def next : Input W → Pc → Shared W → Option (Pc × Op W)
  | .proceed, .idle, _ => none
  | .poll f w, .idle, _ => some (.idle, .poll f w)
  | .wake, .idle, _ => some (.idle, .wake)
  | .wait, .idle, _ => some (.wait, .tau)
  | .ready, .idle, _ => some (.idle, .tau)
  | _, .wait, m => m.signal.wait?.map fun _ => (.idle, .wait)

/-- The threads of one signal. -/
def waiters (W : Type) : System ThreadId (Shared W) (Op W) where
  Pc _ := Pc
  Input _ := Input W
  exec := Op.exec
  next _ := next

/-- The signal when `Signal::new` returns. -/
def init : (waiters W).State where
  mem := ⟨.new, fun _ => false, fun _ => none, []⟩
  pc _ := .idle

/-- A step of a thread. -/
def call (i : ThreadId) (c : Input W) : (waiters W).Action := ⟨i, c⟩

/-! ## Registration -/

/-- The waker of every future that is pending is in the list, so the next wake calls
it. -/
def Registered (s : (waiters W).State) : Prop :=
  ∀ f w, s.mem.pending f = some w → w ∈ s.mem.signal.wakers

/-- The poll is not the first one of the future, finds the flag down, and is given a
waker of no first poll since the signal was woken. -/
def Op.loses [DecidableEq W] (m : Shared W) : Op W → Bool
  | .poll f w => m.started f && !m.signal.ready && !decide (w ∈ m.firstPolls)
  | _ => false

/-- The step is a poll that loses its waker. -/
def Loses [DecidableEq W] (s : (waiters W).State) (a : (waiters W).Action) : Bool :=
  match s.next a with
  | some (_, o) => o.loses s.mem
  | none => false

/-- The list of wakers holds those of the first polls. -/
structure Ok (m : Shared W) : Prop where
  wakers : m.signal.wakers = m.firstPolls
  pending : ∀ f w, m.pending f = some w → w ∈ m.signal.wakers

/-- What a poll does that finds the flag down. -/
theorem exec_poll {m : Shared W} {f : FutureId} {w : W} (hr : m.signal.ready = false) :
    ((Op.poll f w).exec m).pending = update m.pending f (some w) ∧
      ((Op.poll f w).exec m).signal.wakers =
        (if m.started f then m.signal.wakers else m.signal.wakers ++ [w]) ∧
      ((Op.poll f w).exec m).firstPolls =
        if m.started f then m.firstPolls else m.firstPolls ++ [w] := by
  cases hs : m.started f <;> simp [Op.exec, Signal.poll, hr, hs]

theorem Ok.exec [DecidableEq W] {m : Shared W} (h : Ok m) {o : Op W} (ho : o.loses m = false) :
    Ok (o.exec m) := by
  cases o with
  | tau => exact h
  | wake => exact ⟨rfl, nofun⟩
  | wait => exact ⟨h.wakers, h.pending⟩
  | poll f w =>
      cases hr : m.signal.ready with
      | true =>
          refine ⟨by simp [Op.exec, Signal.poll, hr, h.wakers], fun g v hg => ?_⟩
          have hg : update m.pending f none g = some v := by
            simpa [Op.exec, Signal.poll, hr] using hg
          have hne : g ≠ f := by
            rintro rfl
            simp at hg
          rw [Function.update_of_ne hne] at hg
          simpa [Op.exec, Signal.poll, hr] using h.pending g v hg
      | false =>
          obtain ⟨hp, hw, hf⟩ := exec_poll (m := m) (f := f) (w := w) hr
          refine ⟨by rw [hw, hf, h.wakers], fun g v hg => ?_⟩
          rw [hp] at hg
          rw [hw]
          by_cases hgf : g = f
          · subst hgf
            rw [Function.update_self] at hg
            obtain rfl := Option.some.inj hg
            split
            case isTrue hs =>
              rw [h.wakers]
              simpa [Op.loses, hs, hr] using ho
            case isFalse => simp
          · rw [Function.update_of_ne hgf] at hg
            have hv := h.pending g v hg
            split
            · exact hv
            · exact List.mem_append_left _ hv

/-- After a poll that loses its waker, the future is pending and not registered. -/
theorem Ok.lost [DecidableEq W] {m : Shared W} (h : Ok m) {o : Op W} (ho : o.loses m = true) :
    ∃ f w, (o.exec m).pending f = some w ∧ w ∉ (o.exec m).signal.wakers := by
  cases o with
  | poll f w =>
      simp only [Op.loses, Bool.and_eq_true, Bool.not_eq_true', decide_eq_false_iff_not] at ho
      obtain ⟨⟨hs, hr⟩, hno⟩ := ho
      obtain ⟨hp, hw, -⟩ := exec_poll (m := m) (f := f) (w := w) hr
      refine ⟨f, w, by rw [hp, Function.update_self], ?_⟩
      rw [hw, if_pos hs, h.wakers]
      exact hno
  | _ => cases ho

theorem Ok.registered_iff [DecidableEq W] (as : List (waiters W).Action) :
    ∀ {s : (waiters W).State}, Ok s.mem →
      ((∀ n, Registered (s.after (as.take n))) ↔ s.along (fun s a => !Loses s a) as = true) := by
  induction as with
  | nil =>
      intro s h
      refine iff_of_true (fun n => ?_) rfl
      rw [List.take_nil]
      exact h.pending
  | cons a as ih =>
      intro s h
      have hreg : Registered s := h.pending
      rw [System.State.forall_prefix_cons (I := Registered), and_iff_right hreg,
        System.State.along]
      cases hn : s.next a with
      | none =>
          have hs : s.step a = none := by rw [System.State.step, hn]; rfl
          rw [hs, Loses, hn]
          simpa using ih h
      | some r =>
          obtain ⟨p, o⟩ := r
          rw [System.State.step_of_next hn, Option.getD_some, Loses, hn]
          cases ho : o.loses s.mem with
          | false => simpa [ho] using ih (s := s.move a.tid p o) (h.exec ho)
          | true =>
              obtain ⟨f, w, hp, hw⟩ := h.lost ho
              exact iff_of_false (fun hall => hw (hall 0 f w hp)) (by simp [ho])

/-- Along every schedule, a future that is pending is registered in every state, exactly
if no poll loses its waker: a future that was polled before is polled while the flag is
down only with a waker of a first poll since the signal was woken. -/
theorem pending_registered [DecidableEq W] (as : List (waiters W).Action) :
    (∀ n, Registered ((init (W := W)).after (as.take n))) ↔
      (init (W := W)).along (fun s a => !Loses s a) as = true :=
  Ok.registered_iff as ⟨rfl, nofun⟩

/-- A future is polled, the signal is woken, another thread waits, and the future is
polled again. -/
def takenWakeUp : List (waiters Nat).Action :=
  [call 0 (.poll 0 7), call 1 .wake, call 2 .wait, call 2 .proceed, call 0 (.poll 0 7)]

/-- The future is pending, and no wake will call its waker. -/
theorem not_pending_registered :
    ¬∀ s : (waiters Nat).State, System.Reach init s → Registered s := by
  intro h
  have hmem := h (init.after takenWakeUp) (.after _ .init) 0 7 (by decide)
  revert hmem
  decide

end MVSync.Wakers
