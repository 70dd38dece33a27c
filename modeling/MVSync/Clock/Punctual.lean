import Mathlib.Algebra.BigOperators.Group.Finset.Basic
import Mathlib.Algebra.Order.BigOperators.Group.Finset
import Mathlib.Data.Prod.Lex
import MVSync.Clock.Waits
import MVSync.Concurrency.Ranking

/-!
# Waits that return

While no time passes, the timer thread and the owners of the clocks come to rest.  If the
timer thread then sleeps in time, every `wait_sync` whose instant has come has returned
(`waits_return`).

The timer thread oversleeps only after a future pushes its entry between its look at the
heap and its wait.  So when everybody rests in time and only time passes, every wait whose
instant came returns, and everybody rests in time again (`due_waits_return`).
-/

namespace MVSync.Clocks

open Concurrency
open Timer (Instant Duration SleepId Sleep Poll SleepPc TimerPc TimerInput SleepStep TimerStep
  TimerEntry timerNext)

variable {s s' : clocks.State} {a : clocks.Action} {m m' : Shared} {i j : OwnerId} {c : Clock}
  {f : SleepId} {x : Sleep} {es : Finset OwnerId}

/-- The timer thread goes on, and the owners `es` go on with their calls. -/
def Goes (es : Finset OwnerId) (a : clocks.Action) : Prop :=
  (∃ b, b ≠ .spurious ∧ a = turn b) ∨ ∃ i ∈ es, a = call i .proceed

/-! ## What is left to do -/

/-- What is left of a poll. -/
def sleepTurn : SleepPc → Nat
  | .idle x _ => if x.started then 3 else 9
  | .lock _ => 8
  | .push _ => 7
  | .unlock _ => 6
  | .notifyOne _ => 5

/-- What is left of a call. -/
def OwnerPc.turn (m : Shared) : OwnerPc → Nat
  | .absent | .idle _ | .pending _ _ => 0
  | .set _ => 1
  | .poll _ _ f => sleepTurn (m.sleeps f)
  | .block _ _ => 4
  | .newSleep _ _ _ => 10
  | .wait _ _ => 11

/-- What is left of a turn of the timer thread. -/
def timerTurn (n : Timer.Shared) : TimerPc → Nat
  | .asleep =>
      match n.asleep with
      | none => 10
      | some none => 0
      | some (some d) => if d ≤ n.clock then 10 else 0
  | .relock => 9
  | .unlock => 8
  | .wake _ => 7
  | .peek => 6
  | .decide _ => 5
  | .pop => 4
  | .lock _ => 3
  | .wait _ => 2
  | .panicked => 0

/-- A step of a poll is a step towards its end.  The last poll of `await_sync` is ready. -/
theorem polled_turn_lt {sync : Bool} {p p' : SleepPc} {o : Timer.Op}
    (hn : SleepStep f m.timer p p' o)
    (hw : ∀ x last, sync = true → p = .idle x last → x.started = true → x.when ≤ m.timer.clock) :
    (OwnerPc.polled sync c f p').turn ((Op.poll f p' o).exec m) < sleepTurn p := by
  cases hn with
  | pending hs hlt =>
      cases sync with
      | false => simp [OwnerPc.polled, OwnerPc.turn, sleepTurn, hs]
      | true => exact absurd (hw _ _ rfl rfl hs) (Nat.not_le_of_lt hlt)
  | first hs | ready hs => simp [OwnerPc.polled, OwnerPc.turn, Op.exec, sleepTurn, hs]
  | notifyOne => cases sync <;> simp [OwnerPc.polled, OwnerPc.turn, sleepTurn]
  | _ => simp [OwnerPc.polled, OwnerPc.turn, Op.exec, sleepTurn]

/-- A step of a call is a step towards its end. -/
theorem OwnerPc.turn_lt {p p' : OwnerPc} {o : Op} {q : TimerPc}
    (hn : ownerNext i .proceed p m = some (p', o)) (hw : p.Waits m q)
    (hb : ∀ c f, p = .block c f → (m.sleeps f).future.started = true ∧ busy (m.sleeps f) = false) :
    p'.turn (o.exec m) < p.turn m := by
  cases p with
  | absent | idle | pending => cases hn
  | poll sync c f =>
      cases ownerNext_step hn with
      | poll hstep =>
          refine polled_turn_lt hstep ?_
          rintro x last rfl hp hs
          simp only [Waits, hp] at hw
          exact hw hs
  | block c f =>
      obtain ⟨hs, hidle⟩ := hb c f rfl
      cases ownerNext_step hn with
      | woken =>
          cases hp : m.sleeps f with
          | idle x last =>
              rw [hp] at hs
              have hs : x.started = true := hs
              simp [turn, Op.exec, hp, sleepTurn, hs]
          | _ => simp [hp, busy] at hidle
  | wait sync c => cases ownerNext_step hn <;> simp [turn]
  | newSleep sync c d =>
      cases ownerNext_step hn
      simp [turn, Op.exec, sleepTurn]
  | set c =>
      cases ownerNext_step hn
      simp [turn]

/-- The wait that begins is for some time. -/
def TimedOk (p : TimerPc) : Prop :=
  ∀ x, p = .lock (some x) ∨ p = .wait (some x) → 0 < x.waitDuration

theorem timedOk_of_step {n : Timer.Shared} {p p' : TimerPc} {o : Timer.Op}
    (hn : TimerStep n p p' o) (h : TimedOk p) : TimedOk p' := by
  cases hn with
  | notDue hlt =>
      rintro x (hx | hx) <;> cases hx
      exact Nat.sub_pos_of_lt hlt
  | lock =>
      rintro x (hx | hx) <;> cases hx
      exact h x (.inl rfl)
  | _ => rintro x (hx | hx) <;> cases hx

theorem Reachable.timedOk (h : Reachable s) : TimedOk (thread s) := by
  refine h.invariant (I := fun s => TimedOk (thread s)) ?_ ?_
  · rintro x (hx | hx) <;> cases hx
  intro s s' a _ hi hs _
  rcases step_cases hs with ⟨b, q, o, rfl, hn, rfl⟩ | ⟨j, b, q, o, rfl, -, rfl⟩ | ⟨d, rfl, rfl⟩
  · rw [thread_move]
    exact timedOk_of_step (Timer.timerNext_step hn) hi
  · rwa [thread_move_owner]
  · rwa [thread_move_time]

/-- The timer thread wakes up when it is notified, or when its time is up. -/
theorem awake_of_timerNext {n : Timer.Shared} {b : TimerInput} {p : TimerPc} {o : Timer.Op}
    (hn : timerNext b .asleep n = some (p, o)) (hb : b ≠ .spurious) :
    timerTurn n .asleep = 10 := by
  simp only [timerNext] at hn
  split at hn
  case h_1 ha => simp [timerTurn, ha]
  case h_2 d ha =>
    split at hn
    case isTrue hle =>
      have hle : d ≤ n.clock := hle
      simp [timerTurn, ha, hle]
    case isFalse => cases hn
  case h_3 => exact absurd rfl hb
  case h_4 => cases hn

/-- A step of the timer thread pops an entry, or is a step towards its next sleep. -/
theorem timerTurn_lt {n : Timer.Shared} {b : TimerInput} {p p' : TimerPc} {o : Timer.Op}
    (hn : timerNext b p n = some (p', o)) (hb : b ≠ .spurious) (hp : TimedOk p) :
    (o.exec n).queue.length < n.queue.length ∨
      (o.exec n).queue = n.queue ∧ timerTurn (o.exec n) p' < timerTurn n p := by
  cases Timer.timerNext_step hn with
  | pop _ hfirst =>
      have hpos := List.length_pos_of_mem hfirst.1
      refine .inl ?_
      simp only [Timer.Op.exec, List.length_erase_of_mem hfirst.1]
      omega
  | notified | timeout | spurious =>
      have hturn := awake_of_timerNext hn hb
      refine .inr ⟨rfl, ?_⟩
      rw [hturn]
      exact Nat.lt_succ_self 9
  | @wait timed =>
      refine .inr ⟨rfl, ?_⟩
      cases timed with
      | none => simp [timerTurn, Timer.Op.exec]
      | some x =>
          have hpos := hp x (.inr rfl)
          have hlt : ¬n.clock + x.waitDuration ≤ n.clock := by lia
          simp [timerTurn, Timer.Op.exec, hlt]
  | _ => exact .inr ⟨rfl, by simp [timerTurn]⟩

/-- What everybody has left to do. -/
def rank (es : Finset OwnerId) (s : clocks.State) : ℕ ×ₗ ℕ ×ₗ ℕ :=
  toLex (∑ i ∈ es, (owner s i).turn s.mem,
    toLex (s.mem.timer.queue.length, timerTurn s.mem.timer (thread s)))

/-- Only the owners `es` are in a poll. -/
structure Polling (es : Finset OwnerId) (s : clocks.State) : Prop where
  reach : Reachable s
  others : ∀ i, i ∉ es → ∀ sync c f, owner s i ≠ .poll sync c f

theorem Polling.moves (h : Polling es s) (hm : s.Moves (Goes es) s') : Polling es s' := by
  obtain ⟨a, ha, hs⟩ := hm
  refine ⟨.step a h.reach hs trivial, fun i hi => ?_⟩
  have hpc : owner s' i = owner s i := by
    rcases ha with ⟨b, -, rfl⟩ | ⟨j, hj, rfl⟩
    · obtain ⟨q, o, -, rfl⟩ := step_turn hs
      exact owner_move_timer s _ i q
    · obtain ⟨q, o, -, rfl⟩ := step_call hs
      exact owner_move_of_ne s o (by rintro rfl; exact hi hj) q
  rw [hpc]
  exact h.others i hi

/-- An owner that does not move has as much left to do as before. -/
theorem OwnerPc.turn_eq {p : OwnerPc} (h : ∀ f, p.future = some f → m'.sleeps f = m.sleeps f) :
    p.turn m' = p.turn m := by
  cases p with
  | poll sync c f => simp [turn, h f rfl]
  | _ => rfl

/-- What `await_sync` waits for was polled, and is not polled now. -/
theorem Reachable.blocked (h : Reachable s) (hp : owner s i = .block c f) :
    (s.mem.sleeps f).future.started = true ∧ busy (s.mem.sleeps f) = false := by
  have hw := h.waits i
  rw [hp] at hw
  exact ⟨hw.1, h.not_busy (by rw [hp]; rfl) fun _ _ he => by rw [hp] at he; cases he⟩

theorem Reachable.turn_lt (h : Reachable s) {q : OwnerPc} {o : Op}
    (hn : ownerNext i .proceed (owner s i) s.mem = some (q, o)) :
    q.turn (o.exec s.mem) < (owner s i).turn s.mem := by
  exact OwnerPc.turn_lt hn (h.waits i) fun c f hp => h.blocked hp

theorem Polling.rank_lt (h : Polling es s) (hm : s.Moves (Goes es) s') :
    rank es s' < rank es s := by
  obtain ⟨a, ha, hs⟩ := hm
  have hr : Reachable s := h.reach
  obtain ⟨b, hb, rfl⟩ | ⟨i, hi, rfl⟩ := ha
  · obtain ⟨q, o, hn, rfl⟩ := step_turn hs
    have hmem : (s.move .timer q (.timer o)).mem = (Op.timer o).exec s.mem := rfl
    have hsum : ∑ i ∈ es, (owner (s.move .timer q (.timer o)) i).turn
        (s.move .timer q (.timer o)).mem = ∑ i ∈ es, (owner s i).turn s.mem :=
      Finset.sum_congr rfl fun i _ => by
        rw [owner_move_timer]
        exact OwnerPc.turn_eq fun _ _ => rfl
    rw [rank, rank, hsum, thread_move]
    refine Prod.Lex.toLex_lt_toLex.mpr (.inr ⟨rfl, Prod.Lex.toLex_lt_toLex.mpr ?_⟩)
    rcases timerTurn_lt hn hb hr.timedOk with hlt | ⟨heq, hlt⟩
    · exact .inl hlt
    · exact .inr ⟨congrArg List.length heq, hlt⟩
  · obtain ⟨q, o, hn, rfl⟩ := step_call hs
    have hmem : (s.move (.owner i) q o).mem = o.exec s.mem := rfl
    refine Prod.Lex.toLex_lt_toLex.mpr (.inl ?_)
    have hlt : (owner (s.move (.owner i) q o) i).turn (o.exec s.mem) < (owner s i).turn s.mem := by
      rw [owner_move]
      exact hr.turn_lt hn
    refine Finset.sum_lt_sum (fun j _ => ?_) ⟨i, hi, hlt⟩
    by_cases hj : j = i
    · rw [hj]
      exact Nat.le_of_lt hlt
    · rw [owner_move_of_ne s o hj]
      refine Nat.le_of_eq (OwnerPc.turn_eq fun f hf => ?_)
      exact (ownerNext_step hn).sleeps_eq (fun hg => hj (hr.unique hf hg))
        ((hr.timely j).lt_made hf)

/-! ## At rest -/

/-- The timer thread sleeps in time for its first entry, if it sleeps. -/
def InTime (s : clocks.State) : Prop := Timer.InTime (view (durations s) s)

/-- Where an owner rests: it is out of its calls, its future of `wait` is pending, or
`wait_sync` waits for an instant that is still to come. -/
inductive Rests (m : Shared) : OwnerPc → Prop where
  | absent : Rests m .absent
  | idle {c : Clock} : Rests m (.idle c)
  | pending {c : Clock} {f : SleepId} : Rests m (.pending c f)
  | block {c : Clock} {f : SleepId} (hlt : m.timer.clock < (m.sleeps f).future.when) :
      Rests m (.block c f)

theorem halted_turn (h : s.Halted (Goes es)) {b : TimerInput} (hb : b ≠ .spurious) :
    timerNext b (thread s) s.mem.timer = none :=
  Option.map_eq_none_iff.mp (h (turn b) (.inl ⟨b, hb, rfl⟩))

theorem halted_call (h : s.Halted (Goes es)) (hi : i ∈ es) :
    ownerNext i .proceed (owner s i) s.mem = none :=
  h (call i .proceed) (.inr ⟨i, hi, rfl⟩)

/-- At rest nobody has the lock of the heap. -/
theorem Polling.unlocked (h : Polling es s) (hh : s.Halted (Goes es)) :
    s.mem.timer.locked = false := by
  refine Bool.eq_false_iff.mpr fun hl => ?_
  rcases Reachable.locked h.reach hl with hp | ⟨f, hf⟩
  · have hblocked := halted_turn hh (b := .proceed) (by simp)
    cases hq : thread s with
    | wait | unlock =>
        rw [hq] at hblocked
        cases hblocked
    | _ => simp [hq, threadHolds] at hp
  · obtain ⟨i, sync, c, he⟩ := Reachable.polled h.reach (busy_of_holds hf)
    by_cases hi : i ∈ es
    · have hblocked := halted_call hh hi
      rw [he] at hblocked
      cases hp : s.mem.sleeps f with
      | push | unlock => simp [ownerNext, hp, Timer.sleepNext] at hblocked
      | _ => simp [hp, holds] at hf
    · exact h.others i hi sync c f he

/-- At rest no future is in a poll. -/
theorem Polling.not_busy (h : Polling es s) (hh : s.Halted (Goes es)) (f : SleepId) :
    busy (s.mem.sleeps f) = false := by
  have hl := h.unlocked hh
  refine Bool.eq_false_iff.mpr fun hb => ?_
  obtain ⟨i, sync, c, he⟩ := Reachable.polled h.reach hb
  by_cases hi : i ∈ es
  · have hblocked := halted_call hh hi
    rw [he] at hblocked
    cases hp : s.mem.sleeps f with
    | idle => simp [hp, busy] at hb
    | _ => simp [ownerNext, hp, Timer.sleepNext, hl] at hblocked
  · exact h.others i hi sync c f he

/-- A heap that is not empty has a first entry. -/
theorem exists_first {n : Timer.Shared} (h : n.queue ≠ []) : ∃ e, n.First e := by
  obtain ⟨e, he⟩ := List.exists_mem_of_ne_nil _ h
  obtain ⟨t, ht, -⟩ := n.peek_covers he
  obtain ⟨e', he', hw⟩ := n.peek_mem ht
  refine ⟨e', he', fun e'' he'' => ?_⟩
  obtain ⟨t', ht', hle⟩ := n.peek_covers he''
  obtain rfl := Option.some.inj (ht.symm.trans ht')
  rwa [hw]

/-- The timer thread is blocked by the lock, or sleeps and its time is not up. -/
theorem asleep_of_timerNext {n : Timer.Shared} {p : TimerPc} (hl : n.locked = false)
    (hd : p.Due n) (h : ∀ b, b ≠ .spurious → timerNext b p n = none) :
    p = .asleep ∧ ∃ d, n.asleep = some d ∧ ∀ t, d = some t → n.clock < t := by
  have hgo := h .proceed (by simp)
  cases p with
  | asleep =>
      refine ⟨rfl, ?_⟩
      cases ha : n.asleep with
      | none => simp [timerNext, ha] at hgo
      | some d =>
          refine ⟨d, rfl, ?_⟩
          rintro t rfl
          have hup := h .timeout (by simp)
          simp only [timerNext, ha] at hup
          split at hup
          · cases hup
          case isFalse hlt => exact Nat.lt_of_not_le hlt
  | pop =>
      by_cases hq : n.queue = []
      · simp [timerNext, hl, hq] at hgo
      · obtain ⟨e, he⟩ := exists_first hq
        have hpop := h (.entry e) (by simp)
        simp [timerNext, hl, hq, he] at hpop
  | decide next =>
      cases next with
      | none => cases hgo
      | some t =>
          simp only [timerNext] at hgo
          split at hgo <;> cases hgo
  | panicked => exact hd.elim
  | wake | wait | unlock => cases hgo
  | _ => simp [timerNext, hl] at hgo

/-- At rest the timer thread sleeps, and its time is not up. -/
theorem Polling.asleep (h : Polling es s) (hh : s.Halted (Goes es)) :
    thread s = .asleep ∧ ∃ d, s.mem.timer.asleep = some d ∧
      ∀ t, d = some t → s.mem.timer.clock < t :=
  asleep_of_timerNext (h.unlocked hh) (Timer.Reachable.due (Reachable.shown h.reach))
    fun _ hb => halted_turn hh hb

theorem quiet_of_idle {duration : SleepId → Duration}
    (h : ∀ f, busy (s.mem.sleeps f) = false) : Timer.Quiet (view duration s) := by
  intro f
  have hf := h f
  rw [sleep_view]
  split
  · cases hp : s.mem.sleeps f with
    | idle => rfl
    | _ => simp [hp, busy] at hf
  · rfl

/-- If the timer thread sleeps in time, a wait that is still blocked at rest is not due. -/
theorem Polling.not_due (h : Polling es s) (hh : s.Halted (Goes es)) (hin : InTime s)
    (hi : i ∈ es) (hp : owner s i = .block c f) :
    s.mem.timer.clock < (s.mem.sleeps f).future.when := by
  obtain ⟨hthread, d, hd, hlt⟩ := h.asleep hh
  have hw := Reachable.waits h.reach i
  have hready : s.mem.ready f = false := by
    have hblocked := halted_call hh hi
    simpa [hp, ownerNext] using hblocked
  rw [hp] at hw
  obtain ⟨-, (hq | hq) | hr⟩ := hw
  · rcases hin d hd (quiet_of_idle (h.not_busy hh)) with hnil | ⟨t, rfl, hall⟩
    · rw [view_mem] at hnil
      simp [hnil] at hq
    · exact Nat.lt_of_lt_of_le (hlt t rfl) (hall _ hq)
  · rw [hthread] at hq
    cases hq
  · simp [hready] at hr

theorem Polling.rests (h : Polling es s) (hh : s.Halted (Goes es)) (hin : InTime s)
    (hi : i ∈ es) : Rests s.mem (owner s i) := by
  have hblocked := halted_call hh hi
  cases hp : owner s i with
  | absent => exact .absent
  | idle => exact .idle
  | pending => exact .pending
  | block c f => exact .block (h.not_due hh hin hi hp)
  | poll sync c f =>
      have hidle := h.not_busy hh f
      rw [hp] at hblocked
      cases hq : s.mem.sleeps f with
      | idle x last =>
          simp only [ownerNext, hq, Timer.sleepNext, Option.map_eq_none_iff] at hblocked
          split at hblocked
          · cases hblocked
          · split at hblocked <;> cases hblocked
      | _ => simp [hq, busy] at hidle
  | wait sync c =>
      rw [hp] at hblocked
      simp only [ownerNext] at hblocked
      split at hblocked <;> cases hblocked
  | newSleep | set =>
      rw [hp] at hblocked
      cases hblocked

/-- Whatever the clocks and the timer thread are in the middle of, while no time passes they
come to rest.  If the timer thread then sleeps in time, every `wait_sync` whose instant has
come has returned. -/
theorem waits_return (h : Reachable s)
    (hes : ∀ i, i ∉ es → ∀ sync c f, owner s i ≠ .poll sync c f) :
    System.Inevitable (Goes es) (fun s' => s'.Halted (Goes es) ∧
      (InTime s' → ∀ i ∈ es, Rests s'.mem (owner s' i))) s := by
  let R : System.Ranking clocks (Goes es) (Polling es) (ℕ ×ₗ ℕ ×ₗ ℕ) :=
    ⟨rank es, fun h hm => h.moves hm, fun h hm => h.rank_lt hm⟩
  exact R.inevitable (fun s' hp hh => ⟨hh, fun hin i hi => hp.rests hh hin hi⟩) ⟨h, hes⟩

/-! ## When only time passes -/

/-- The owner makes no entry before its call ends. -/
def OwnerPc.Ends (m : Shared) : OwnerPc → Prop
  | .wait _ _ | .newSleep _ _ _ => False
  | .poll _ _ f => (m.sleeps f).future.started = true ∧ busy (m.sleeps f) = false
  | _ => True

theorem Rests.ends {p : OwnerPc} (h : Rests m p) : p.Ends m' := by
  cases h <;> trivial

/-- Since the timer thread looked at the heap, nothing was pushed and no time passed. -/
def Fresh (n : Timer.Shared) : TimerPc → Prop
  | .decide _ => n.pushed = []
  | .lock timed | .wait timed => n.pushed = [] ∧ ∀ x, timed = some x → x.now = n.clock
  | _ => True

theorem fresh_of_step {n : Timer.Shared} {p p' : TimerPc} {o : Timer.Op}
    (hn : TimerStep n p p' o) (h : Fresh n p) : Fresh (o.exec n) p' := by
  cases hn with
  | peek => exact rfl
  | nothing => exact ⟨h, by simp⟩
  | notDue =>
      refine ⟨h, fun x hx => ?_⟩
      cases hx
      rfl
  | lock => exact h
  | _ => trivial

/-- A wait that nothing was pushed before is not late. -/
theorem not_oversleeps {v : Timer.timer.State} {b : TimerInput}
    (h : Fresh v.mem (Timer.thread v)) : ¬Timer.Oversleeps v (Timer.turn b) := by
  rintro ⟨-, -, timed, hp, ⟨e, he, -⟩ | ⟨x, rfl, hlt⟩⟩
  · rw [hp] at h
    simp [h.1] at he
  · rw [hp] at h
    exact Nat.ne_of_lt hlt (h.2 x rfl)

/-- Everybody goes on from a state in which all rested in time. -/
structure Waking (es : Finset OwnerId) (s : clocks.State) : Prop where
  polling : Polling es s
  inTime : InTime s
  ends : ∀ i ∈ es, (owner s i).Ends s.mem
  fresh : Fresh s.mem.timer (thread s)

theorem Waking.not_busy (h : Waking es s) (f : SleepId) : busy (s.mem.sleeps f) = false := by
  refine Bool.eq_false_iff.mpr fun hb => ?_
  obtain ⟨i, sync, c, he⟩ := Reachable.polled h.polling.reach hb
  by_cases hi : i ∈ es
  · have hends := h.ends i hi
    rw [he] at hends
    simp [hends.2] at hb
  · exact h.polling.others i hi sync c f he

/-- A call that makes no entry does nothing to the timer. -/
theorem OwnerPc.Ends.step {p p' : OwnerPc} {o : Op} (h : p.Ends m)
    (hn : ownerNext i .proceed p m = some (p', o))
    (hb : ∀ c f, p = .block c f → (m.sleeps f).future.started = true ∧ busy (m.sleeps f) = false) :
    p'.Ends (o.exec m) ∧ (o.exec m).timer = m.timer := by
  cases p with
  | absent | idle | pending => cases hn
  | wait | newSleep => exact h.elim
  | poll sync c f =>
      cases ownerNext_step hn with
      | poll hstep =>
          obtain ⟨hs, hidle⟩ := h
          generalize m.sleeps f = p₀ at hstep hs hidle
          cases hstep with
          | first hs' => cases hs.symm.trans hs'
          | ready => exact ⟨trivial, rfl⟩
          | pending => cases sync <;> exact ⟨trivial, rfl⟩
          | _ => cases hidle
  | block c f =>
      cases ownerNext_step hn with
      | woken => exact ⟨hb c f rfl, rfl⟩
  | set c =>
      cases ownerNext_step hn
      exact ⟨trivial, rfl⟩

theorem OwnerPc.Ends.mono {p : OwnerPc} (h : p.Ends m)
    (hs : ∀ f, p.future = some f → m'.sleeps f = m.sleeps f) : p.Ends m' := by
  cases p with
  | poll sync c f =>
      rw [Ends, hs f rfl]
      exact h
  | _ => exact h

theorem Waking.moves (h : Waking es s) (hm : s.Moves (Goes es) s') : Waking es s' := by
  have hr : Reachable s := h.polling.reach
  have hpolling := h.polling.moves hm
  obtain ⟨a, ⟨b, -, rfl⟩ | ⟨i, hi, rfl⟩, hs⟩ := hm
  · obtain ⟨q, o, hn, rfl⟩ := step_turn hs
    refine ⟨hpolling, ?_, fun j hj => ?_, ?_⟩
    · exact h.inTime.step (Timer.Reachable.threadOk hr.shown) (not_oversleeps h.fresh)
        (view_turn hn)
    · rw [owner_move_timer]
      exact (h.ends j hj).mono fun _ _ => rfl
    · rw [thread_move]
      exact fresh_of_step (Timer.timerNext_step hn) h.fresh
  · obtain ⟨q, o, hn, rfl⟩ := step_call hs
    obtain ⟨hends, htimer⟩ := (h.ends i hi).step hn fun c f hp => hr.blocked hp
    have hmem : (s.move (.owner i) q o).mem.timer = s.mem.timer := htimer
    refine ⟨hpolling, ?_, fun j hj => ?_, ?_⟩
    · intro d hd _
      rw [view_mem, hmem] at hd ⊢
      exact h.inTime d hd (quiet_of_idle h.not_busy)
    · by_cases hji : j = i
      · subst hji
        rwa [owner_move]
      · rw [owner_move_of_ne s o hji]
        refine (h.ends j hj).mono fun f hf => ?_
        exact (ownerNext_step hn).sleeps_eq (fun hg => hji (hr.unique hf hg))
          ((hr.timely j).lt_made hf)
    · rw [thread_move_owner, hmem]
      exact h.fresh

/-- Everybody rests, and the timer thread sleeps in time.  Whatever time passes then, every
`wait_sync` whose instant came returns, and everybody rests in time again. -/
theorem due_waits_return (h : Reachable s)
    (hes : ∀ i, i ∉ es → ∀ sync c f, owner s i ≠ .poll sync c f)
    (hh : s.Halted (Goes es)) (hin : InTime s) {d : Duration} (hs : s.step (pass d) = some s') :
    System.Inevitable (Goes es) (fun s₁ => s₁.Halted (Goes es) ∧ InTime s₁ ∧
      ∀ i ∈ es, Rests s₁.mem (owner s₁ i)) s' := by
  let R : System.Ranking clocks (Goes es) (Waking es) (ℕ ×ₗ ℕ ×ₗ ℕ) :=
    ⟨rank es, fun h hm => h.moves hm, fun h hm => h.polling.rank_lt hm⟩
  refine R.inevitable (fun s₁ hw hh₁ =>
    ⟨hh₁, hw.inTime, fun i hi => hw.polling.rests hh₁ hw.inTime hi⟩) ?_
  have hp : Polling es s := ⟨h, hes⟩
  have hthread := (hp.asleep hh).1
  have hpass : s' = s.move .time () (.timer (.tick d)) := by
    obtain ⟨q, o, hn, rfl⟩ := System.State.step_cases hs
    obtain ⟨rfl, rfl⟩ := Prod.mk.inj (Option.some.inj hn)
    rfl
  have hreach : Reachable s' := .step _ h hs trivial
  subst hpass
  refine ⟨⟨hreach, fun i hi => ?_⟩, ?_, fun i hi => ?_, ?_⟩
  · rw [owner_move_time]
    exact hes i hi
  · exact fun t ht _ => hin t ht (quiet_of_idle (hp.not_busy hh))
  · rw [owner_move_time]
    exact (hp.rests hh hin hi).ends
  · rw [thread_move_time, hthread]
    trivial

/-! ## A wait of one clock -/

set_option maxRecDepth 2000

/-- The schedule of a timer thread that falls asleep, is notified of a wait, and sleeps
until its instant. -/
def restSchedule : List clocks.Action :=
  List.replicate 4 (turn .proceed) ++ [call 0 (.new 50000), call 0 .waitSync] ++
    List.replicate 7 (call 0 .proceed) ++ List.replicate 7 (turn .proceed)

/-- `wait_sync` is blocked, and the timer thread sleeps until its instant. -/
def restRun : clocks.State := init.after restSchedule

theorem restRun_others (i : OwnerId) (hi : i ∉ ({0} : Finset OwnerId)) (sync : Bool) (c : Clock)
    (f : SleepId) : owner restRun i ≠ .poll sync c f := by
  have hpc : owner restRun i = .absent := by
    refine System.State.after_pc_of_ne (i := Tid.owner i) restSchedule ?_
    simp only [Finset.mem_singleton] at hi
    simp [restSchedule, turn, call, Ne.symm hi]
  rw [hpc]
  exact fun h => by cases h

theorem restRun_halted : restRun.Halted (Goes {0}) := by
  rintro a (⟨b, hb, rfl⟩ | ⟨i, hi, rfl⟩)
  · show Option.map _ (timerNext b (thread restRun) restRun.mem.timer) = none
    rw [show thread restRun = .asleep from by decide]
    have ha : restRun.mem.timer.asleep = some (some 20) := by decide
    have hc : restRun.mem.timer.clock = 0 := by decide
    cases b <;> simp_all [timerNext]
  · rw [Finset.mem_singleton.mp hi]
    show ownerNext 0 .proceed (owner restRun 0) restRun.mem = none
    decide

theorem restRun_inTime : InTime restRun := by
  intro d hd _
  have ha : (view (durations restRun) restRun).mem.asleep = some (some 20) := by decide
  rw [ha] at hd
  cases hd
  exact .inr ⟨20, rfl, by decide⟩

/-- The wait returns when its time has passed. -/
theorem due_waits_return_restRun :
    System.Inevitable (Goes {0}) (fun s₁ => s₁.Halted (Goes {0}) ∧ InTime s₁ ∧
      ∀ i ∈ ({0} : Finset OwnerId), Rests s₁.mem (owner s₁ i)) (restRun.after [pass 20]) :=
  due_waits_return (.after _ .init) restRun_others restRun_halted restRun_inTime (d := 20) rfl

/-- The wait comes to rest from the moment it is called. -/
theorem waits_return_restRun :
    System.Inevitable (Goes {0}) (fun s' => s'.Halted (Goes {0}) ∧
      (InTime s' → ∀ i ∈ ({0} : Finset OwnerId), Rests s'.mem (owner s' i))) restRun :=
  waits_return (.after _ .init) restRun_others

end MVSync.Clocks
