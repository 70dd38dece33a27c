import MVSync.Clock.Rate

/-!
# The futures of the clocks

The clocks step like the timer of `timer.rs` does for the futures that they make
(`view_reachable`).  What is known of the timer thread and of the heap is known here, too.

A future is polled by the owner of one clock only (`Reachable.unique`).  The wait of an
owner that `await_sync` blocks is owed a wake-up (`Owed`): the entry of its future is in the
heap, or the timer thread is about to call its waker, or the flag of its signal is up.
-/

namespace MVSync.Clocks

open Concurrency
open Timer (Instant Duration SleepId Sleep Poll SleepPc TimerPc TimerInput SleepStep TimerStep
  TimerEntry)
open Function (update)

variable {s s' : clocks.State} {a : clocks.Action} {m m' : Shared} {i j : OwnerId} {c : Clock}
  {f : SleepId} {x : Sleep}

/-! ## The timer under the clocks -/

/-- A future that was not polled, whenever it was made. -/
def normal : SleepPc → SleepPc
  | .idle x last => .idle (if x.started then x else { x with when := 0 }) last
  | p => p

/-- The timer that a state of the clocks shows. -/
def view (duration : SleepId → Duration) (s : clocks.State) : Timer.timer.State where
  mem := s.mem.timer
  pc
    | .timer => thread s
    | .sleep f =>
        if f < s.mem.made then normal (s.mem.sleeps f) else .idle ⟨duration f, 0, false⟩ none
    | .clock => ()

/-- The durations are those of the futures that were made. -/
def Durations (duration : SleepId → Duration) (m : Shared) : Prop :=
  ∀ f < m.made, (m.sleeps f).future.duration = duration f

/-- A poll does not depend on when the future was made. -/
theorem sleepNext_normal (f : SleepId) (p : SleepPc) (n : Timer.Shared) :
    Timer.sleepNext f (normal p) n = Timer.sleepNext f p n := by
  cases p with
  | idle x last => cases hs : x.started <;> simp [normal, hs, Timer.sleepNext]
  | _ => rfl

theorem sleepNext_of_step {n : Timer.Shared} {p p' : SleepPc} {o : Timer.Op}
    (h : SleepStep f n p p' o) : Timer.sleepNext f p n = some (p', o) := by
  cases h with
  | first hs => simp [Timer.sleepNext, hs]
  | ready hs hle => simp [Timer.sleepNext, hs, hle]
  | pending hs hlt => simp [Timer.sleepNext, hs, hlt]
  | lock hl => simp [Timer.sleepNext, hl]
  | _ => rfl

theorem normal_of_sleepStep {n : Timer.Shared} {p p' : SleepPc} {o : Timer.Op} {d : Duration}
    (h : SleepStep f n p p' o) (hp : p.Ok d) : normal p' = p' := by
  cases h with
  | ready hs | pending hs => simp [normal, hs]
  | @notifyOne x =>
      have hs : x.started = true := hp.of_busy (by simp)
      simp [normal, hs]
  | _ => rfl

/-- Before its first poll a future is not in a poll. -/
def SleepsOk (m : Shared) : Prop := ∀ f, (m.sleeps f).Ok (m.sleeps f).future.duration

theorem OwnerStep.sleepsOk {p p' : OwnerPc} {o : Op} (hn : OwnerStep i m p p' o)
    (h : SleepsOk m) : SleepsOk (o.exec m) := by
  intro f
  cases hn with
  | @newSleep _ _ d =>
      by_cases hf : f = m.made
      · subst hf
        simpa [Op.exec, SleepPc.future] using ⟨rfl, fun _ => ⟨none, rfl⟩⟩
      · simpa [Op.exec, hf] using h f
  | @poll sync c g p o hstep =>
      by_cases hf : f = g
      · subst hf
        have hok := (hstep.polled (h f)).ok (h f)
        simpa [Op.exec, hok.duration] using hok
      · simpa [Op.exec, hf] using h f
  | _ => exact h f

theorem Reachable.sleepsOk (h : Reachable s) : SleepsOk s.mem := by
  refine h.invariant (I := fun s => SleepsOk s.mem) (fun f => ⟨rfl, fun _ => ⟨none, rfl⟩⟩) ?_
  intro s s' a _ hi hs _
  rcases step_cases hs with ⟨b, q, o, rfl, -, rfl⟩ | ⟨i, b, q, o, rfl, hn, rfl⟩ | ⟨d, rfl, rfl⟩
  · exact hi
  · exact hn.sleepsOk hi
  · exact hi

section

variable (duration : SleepId → Duration) (s : clocks.State)

@[simp] theorem view_mem : (view duration s).mem = s.mem.timer := rfl

@[simp] theorem thread_view : Timer.thread (view duration s) = thread s := rfl

theorem sleep_view (f : SleepId) :
    Timer.sleep (view duration s) f =
      if f < s.mem.made then normal (s.mem.sleeps f) else .idle ⟨duration f, 0, false⟩ none := rfl

end

theorem timer_ext {v w : Timer.timer.State} (hm : v.mem = w.mem)
    (ht : Timer.thread v = Timer.thread w) (hs : ∀ f, Timer.sleep v f = Timer.sleep w f) :
    v = w := by
  have hpc : v.pc = w.pc := by
    funext i
    cases i with
    | timer => exact ht
    | sleep f => exact hs f
    | clock => rfl
  cases v
  cases w
  cases hm
  cases hpc
  rfl

variable {duration : SleepId → Duration}

/-- A step of the timer thread. -/
theorem view_turn {b : TimerInput} {q : TimerPc} {o : Timer.Op}
    (hn : Timer.timerNext b (thread s) s.mem.timer = some (q, o)) :
    (view duration s).step (Timer.turn b) =
      some (view duration (s.move .timer q (.timer o))) := by
  have hnext : (view duration s).next (Timer.turn b) = some (q, o) := hn
  refine (System.State.step_of_next hnext).trans ?_
  refine congrArg some (timer_ext rfl (by simp [Timer.turn]) fun f => ?_)
  simp only [Timer.turn, Timer.sleep_move_timer, sleep_view]
  rfl

/-- A step of an owner is a step of a poll, or the timer does not see it. -/
theorem view_owner {p : OwnerPc} {o : Op} (hr : Reachable s)
    (hn : OwnerStep i s.mem (owner s i) p o) (hd : Durations duration (o.exec s.mem)) :
    view duration (s.move (.owner i) p o) = view duration s ∨
      ∃ f, (view duration s).step (Timer.poll f) =
        some (view duration (s.move (.owner i) p o)) := by
  have hmem : (s.move (.owner i) p o).mem = o.exec s.mem := rfl
  have htimely := hr.timely i
  generalize owner s i = q at hn htimely
  cases hn with
  | @newSleep _ _ d =>
      refine .inl (timer_ext rfl (by simp) fun f => ?_)
      simp only [sleep_view, hmem, Op.exec]
      by_cases hf : f = s.mem.made
      · subst hf
        have hdur : d = duration s.mem.made := by
          simpa [Op.exec, SleepPc.future] using hd s.mem.made (Nat.lt_succ_self _)
        simp [normal, hdur]
      · have hiff : f < s.mem.made + 1 ↔ f < s.mem.made := by lia
        simp [hf, hiff]
  | @poll sync c g q o hstep =>
      have hlt : g < s.mem.made := htimely.2.1
      have hnext : (view duration s).next (Timer.poll g) = some (q, o) := by
        show Timer.sleepNext g (Timer.sleep (view duration s) g) s.mem.timer = some (q, o)
        rw [sleep_view, if_pos hlt, sleepNext_normal]
        exact sleepNext_of_step hstep
      refine .inr ⟨g, (System.State.step_of_next hnext).trans ?_⟩
      refine congrArg some (timer_ext rfl (by simp [Timer.poll]) fun f => ?_)
      by_cases hf : f = g
      · subst hf
        simp [Timer.poll, sleep_view, hmem, Op.exec, hlt,
          normal_of_sleepStep hstep (hr.sleepsOk f)]
      · show Timer.sleep ((view duration s).move (.sleep g) q o) f = _
        rw [Timer.sleep_move_of_ne _ _ hf]
        simp [sleep_view, hmem, Op.exec, hf]
  | _ => exact .inl (timer_ext rfl (by simp) fun _ => rfl)

/-- A step of the clocks is a step of the timer under them, or none. -/
theorem view_step (hr : Reachable s) (hs : s.step a = some s') (hd : Durations duration s'.mem) :
    view duration s' = view duration s ∨
      ∃ a', (view duration s).step a' = some (view duration s') := by
  rcases step_cases hs with ⟨b, q, o, rfl, hn, rfl⟩ | ⟨i, b, q, o, rfl, hn, rfl⟩ | ⟨d, rfl, rfl⟩
  · exact .inr ⟨Timer.turn b, view_turn hn⟩
  · exact (view_owner hr hn hd).imp_right fun ⟨f, h⟩ => ⟨_, h⟩
  · have hnext : (view duration s).next (Timer.pass d) = some ((), .tick d) := rfl
    refine .inr ⟨Timer.pass d, (System.State.step_of_next hnext).trans ?_⟩
    refine congrArg some (timer_ext rfl (by simp [Timer.pass]) fun f => ?_)
    simp only [Timer.pass, Timer.sleep_move_clock, sleep_view]
    rfl

theorem OwnerStep.duration_eq {p p' : OwnerPc} {o : Op} (hn : OwnerStep i m p p' o)
    (h : SleepsOk m) (hf : f < m.made) :
    ((o.exec m).sleeps f).future.duration = (m.sleeps f).future.duration := by
  cases hn with
  | newSleep => simp [Op.exec, Nat.ne_of_lt hf]
  | @poll sync c g p o hstep =>
      by_cases hg : f = g
      · subst hg
        simpa [Op.exec] using ((hstep.polled (h f)).ok (h f)).duration
      · simp [Op.exec, hg]
  | _ => rfl

/-- A future that was made keeps its duration. -/
theorem durations_of_step (hr : Reachable s) (hs : s.step a = some s')
    (hd : Durations duration s'.mem) : Durations duration s.mem := by
  intro f hf
  have hf' := hd f (Nat.lt_of_lt_of_le hf (later_of_step hs).made)
  rcases step_cases hs with ⟨b, q, o, rfl, -, rfl⟩ | ⟨i, b, q, o, rfl, hn, rfl⟩ | ⟨d, rfl, rfl⟩
  · exact hf'
  · exact (hn.duration_eq hr.sleepsOk hf).symm.trans hf'
  · exact hf'

/-- What the clocks do to the timer, the timer can do by itself, with futures of the
durations that they chose. -/
theorem view_reachable (h : Reachable s) (hd : Durations duration s.mem) :
    Timer.Reachable duration (view duration s) := by
  induction h with
  | init =>
      have hinit : view duration init = Timer.init duration :=
        timer_ext rfl rfl fun f => by
          rw [sleep_view]
          exact if_neg (Nat.not_lt_zero f)
      rw [hinit]
      exact .init
  | step a hr hs _ ih =>
      have hreach := ih (durations_of_step hr hs hd)
      rcases view_step hr hs hd with he | ⟨a', ha'⟩
      · rwa [he]
      · exact .step a' hreach ha' trivial

/-- The durations of the futures of a state. -/
def durations (s : clocks.State) (f : SleepId) : Duration := (s.mem.sleeps f).future.duration

theorem Reachable.shown (h : Reachable s) :
    Timer.Reachable (durations s) (view (durations s) s) :=
  view_reachable h fun _ _ => rfl

/-! ## Whose a future is -/

/-- The future that an owner waits for. -/
def OwnerPc.future : OwnerPc → Option SleepId
  | .poll _ _ f | .pending _ f | .block _ f => some f
  | _ => none

theorem OwnerPc.Timely.lt_made {p : OwnerPc} (h : p.Timely m) (hf : p.future = some f) :
    f < m.made := by
  cases p with
  | poll | pending | block =>
      cases hf
      exact h.2.1
  | _ => cases hf

theorem OwnerPc.future_polled {sync : Bool} {p : SleepPc} :
    (OwnerPc.polled sync c f p).future = none ∨ (OwnerPc.polled sync c f p).future = some f := by
  unfold OwnerPc.polled
  split
  · exact .inl rfl
  · cases sync <;> exact .inr rfl
  · exact .inr rfl

/-- An owner comes to a future when it makes it. -/
theorem OwnerStep.future {p p' : OwnerPc} {o : Op} (hn : OwnerStep i m p p' o)
    (hf : p'.future = some f) : p.future = some f ∨ f = m.made := by
  cases hn with
  | newSleep =>
      cases hf
      exact .inr rfl
  | poll =>
      rcases OwnerPc.future_polled with he | he
      · rw [he] at hf
        cases hf
      · exact .inl (he.symm.trans hf)
  | again | woken => exact .inl hf
  | _ => cases hf

/-- No two owners wait for one future. -/
theorem Reachable.unique (h : Reachable s) (hi : (owner s i).future = some f)
    (hj : (owner s j).future = some f) : i = j := by
  refine h.invariant (I := fun s => ∀ i j f, (owner s i).future = some f →
    (owner s j).future = some f → i = j) (fun _ _ _ h => by cases h) ?_ i j f hi hj
  intro s s' a hr hu hs _
  have hr : Reachable s := hr.reach
  rcases step_cases hs with ⟨b, q, o, rfl, -, rfl⟩ | ⟨k, b, q, o, rfl, hn, rfl⟩ | ⟨d, rfl, rfl⟩
  · simpa using hu
  · -- the owner that moves keeps its future, or has a new one
    have hnew : ∀ i f, i ≠ k → (owner s i).future = some f → q.future = some f → False := by
      intro i f hne hf hq
      rcases hn.future hq with hk | rfl
      · exact hne (hu i k f hf hk)
      · exact Nat.lt_irrefl _ ((hr.timely i).lt_made hf)
    intro i j f hi hj
    by_cases hik : i = k <;> by_cases hjk : j = k
    · rw [hik, hjk]
    · rw [hik, owner_move] at hi
      rw [owner_move_of_ne s o hjk] at hj
      exact (hnew j f hjk hj hi).elim
    · rw [hjk, owner_move] at hj
      rw [owner_move_of_ne s o hik] at hi
      exact (hnew i f hik hi hj).elim
    · rw [owner_move_of_ne s o hik] at hi
      rw [owner_move_of_ne s o hjk] at hj
      exact hu i j f hi hj
  · simpa using hu

/-! ## Polls and the lock -/

/-- The future is in a poll. -/
def busy : SleepPc → Bool
  | .idle _ _ => false
  | _ => true

/-- The poll has the lock of the heap. -/
def holds : SleepPc → Bool
  | .push _ | .unlock _ => true
  | _ => false

/-- The timer thread has the lock of the heap. -/
def threadHolds : TimerPc → Bool
  | .wait _ | .unlock => true
  | _ => false

theorem busy_of_holds {p : SleepPc} (h : holds p = true) : busy p = true := by
  cases p with
  | idle => cases h
  | _ => rfl

theorem OwnerPc.polled_of_busy {sync : Bool} {p : SleepPc} (h : busy p = true) :
    OwnerPc.polled sync c f p = .poll sync c f := by
  cases p with
  | idle => cases h
  | _ => rfl

/-- What is in a poll after a step was in one before, or is polled by the owner that
moves. -/
theorem OwnerStep.busy_cases {p p' : OwnerPc} {o : Op} (hn : OwnerStep i m p p' o)
    (hb : busy ((o.exec m).sleeps f) = true) :
    (∃ sync c, p' = .poll sync c f) ∨
      busy (m.sleeps f) = true ∧ ∀ sync c, p ≠ .poll sync c f := by
  cases hn with
  | newSleep =>
      by_cases hf : f = m.made
      · simp [hf, Op.exec, busy] at hb
      · exact .inr ⟨by simpa [Op.exec, hf] using hb, fun _ _ h => by cases h⟩
  | @poll sync c g q o hstep =>
      by_cases hf : f = g
      · subst hf
        exact .inl ⟨sync, c, OwnerPc.polled_of_busy (by simpa [Op.exec] using hb)⟩
      · refine .inr ⟨by simpa [Op.exec, hf] using hb, fun _ _ h => hf ?_⟩
        cases h
        rfl
  | _ => exact .inr ⟨hb, fun _ _ h => by cases h⟩

/-- A future in a poll is polled by its owner. -/
theorem Reachable.polled (h : Reachable s) (hb : busy (s.mem.sleeps f) = true) :
    ∃ i sync c, owner s i = .poll sync c f := by
  refine h.invariant (I := fun s => ∀ f, busy (s.mem.sleeps f) = true →
    ∃ i sync c, owner s i = .poll sync c f) (fun _ h => by cases h) ?_ f hb
  intro s s' a _ hi hs _ f hf
  rcases step_cases hs with ⟨b, q, o, rfl, -, rfl⟩ | ⟨k, b, q, o, rfl, hn, rfl⟩ | ⟨d, rfl, rfl⟩
  · simpa using hi f hf
  · rcases hn.busy_cases hf with ⟨sync, c, rfl⟩ | ⟨hb, hne⟩
    · exact ⟨k, sync, c, owner_move s o k _⟩
    · obtain ⟨i, sync, c, he⟩ := hi f hb
      have hik : i ≠ k := by
        rintro rfl
        exact hne sync c he
      exact ⟨i, sync, c, (owner_move_of_ne s o hik q).trans he⟩
  · simpa using hi f hf

/-- What a step of the timer thread does to the lock. -/
theorem threadHolds_of_step {n : Timer.Shared} {p p' : TimerPc} {o : Timer.Op}
    (h : TimerStep n p p' o) (hl : (o.exec n).locked = true) :
    threadHolds p' = true ∨ n.locked = true ∧ threadHolds p = false := by
  cases h with
  | lock | relock => exact .inl rfl
  | wait | unlock => cases hl
  | _ => exact .inr ⟨hl, rfl⟩

/-- What a step of a poll does to the lock. -/
theorem holds_of_step {n : Timer.Shared} {p p' : SleepPc} {o : Timer.Op}
    (h : SleepStep f n p p' o) (hl : (o.exec n).locked = true) :
    holds p' = true ∨ n.locked = true ∧ holds p = false := by
  cases h with
  | lock | push => exact .inl rfl
  | unlock => cases hl
  | _ => exact .inr ⟨hl, rfl⟩

/-- Somebody has the lock of the heap when it is held. -/
def Locked (m : Shared) (p : TimerPc) : Prop :=
  m.timer.locked = true → threadHolds p = true ∨ ∃ f, holds (m.sleeps f) = true

theorem OwnerStep.locked {p p' : OwnerPc} {o : Op} {q : TimerPc} (hn : OwnerStep i m p p' o)
    (h : Locked m q) (hf : ∀ f, holds (m.sleeps f) = true → f < m.made) :
    Locked (o.exec m) q := by
  intro hl
  cases hn with
  | newSleep =>
      refine (h hl).imp_right fun ⟨f, hh⟩ => ⟨f, ?_⟩
      simpa [Op.exec, Nat.ne_of_lt (hf f hh)] using hh
  | @poll sync c g q' o hstep =>
      rcases holds_of_step hstep hl with hh | ⟨hl', hno⟩
      · exact .inr ⟨g, by simpa [Op.exec] using hh⟩
      · refine (h hl').imp_right fun ⟨f, hh⟩ => ⟨f, ?_⟩
        have hne : f ≠ g := by
          rintro rfl
          simp [hno] at hh
        simpa [Op.exec, hne] using hh
  | _ => exact h hl

theorem Reachable.locked (h : Reachable s) : Locked s.mem (thread s) := by
  refine h.invariant (I := fun s => Locked s.mem (thread s)) (fun h => by cases h) ?_
  intro s s' a hr hi hs _
  have hr : Reachable s := hr.reach
  rcases step_cases hs with ⟨b, q, o, rfl, hn, rfl⟩ | ⟨k, b, q, o, rfl, hn, rfl⟩ | ⟨d, rfl, rfl⟩
  · intro hl
    rw [thread_move]
    rcases threadHolds_of_step (Timer.timerNext_step hn) hl with hh | ⟨hl', hno⟩
    · exact .inl hh
    · exact .inr ((hi hl').resolve_left (by simp [hno]))
  · rw [thread_move_owner]
    refine hn.locked hi fun f hf => ?_
    obtain ⟨i, sync, c, he⟩ := hr.polled (busy_of_holds hf)
    exact (hr.timely i).lt_made (by rw [he]; rfl)
  · exact hi

/-! ## The entries of the heap -/

/-- The future was polled, and waits for the instant `t`. -/
structure Awaits (m : Shared) (f : SleepId) (t : Instant) : Prop where
  made : f < m.made
  started : (m.sleeps f).future.started = true
  when_eq : (m.sleeps f).future.when = t

theorem OwnerStep.future_eq {p p' : OwnerPc} {o : Op} (hn : OwnerStep i m p p' o)
    (h : SleepsOk m) (hf : f < m.made) (hs : (m.sleeps f).future.started = true) :
    ((o.exec m).sleeps f).future = (m.sleeps f).future := by
  cases hn with
  | newSleep => simp [Op.exec, Nat.ne_of_lt hf]
  | @poll sync c g q o hstep =>
      by_cases hg : f = g
      · subst hg
        simpa [Op.exec] using (hstep.polled (h f)).future_eq hs
      · simp [Op.exec, hg]
  | _ => rfl

theorem Awaits.step {t : Instant} (h : Awaits s.mem f t) (hr : Reachable s)
    (hs : s.step a = some s') : Awaits s'.mem f t := by
  have hmade := Nat.lt_of_lt_of_le h.made (later_of_step hs).made
  rcases step_cases hs with ⟨b, q, o, rfl, -, rfl⟩ | ⟨i, b, q, o, rfl, hn, rfl⟩ | ⟨d, rfl, rfl⟩
  · exact ⟨hmade, h.started, h.when_eq⟩
  · have heq := hn.future_eq hr.sleepsOk h.made h.started
    exact ⟨hmade, (congrArg Sleep.started heq).trans h.started,
      (congrArg Sleep.when heq).trans h.when_eq⟩
  · exact ⟨hmade, h.started, h.when_eq⟩

/-- The entry was pushed, and its waker was not called. -/
def Entry (m : Shared) (q : TimerPc) (e : TimerEntry) : Prop :=
  e ∈ m.timer.queue ∨ q = .wake e

/-- An entry that is there after a step of the timer thread was there before. -/
theorem entry_of_timerStep {q q' : TimerPc} {o : Timer.Op} {e : TimerEntry}
    (h : TimerStep m.timer q q' o) (he : Entry ((Op.timer o).exec m) q' e) : Entry m q e := by
  cases h with
  | @pop e' _ hfirst =>
      rcases he with he | he
      · exact .inl (List.mem_of_mem_erase he)
      · cases he
        exact .inl hfirst.1
  | _ =>
      rcases he with he | he
      · exact .inl he
      · cases he

/-- An entry that is there after a step of an owner was there before, or is that of the
future that is polled. -/
theorem OwnerStep.entry {p p' : OwnerPc} {o : Op} {q : TimerPc} {e : TimerEntry}
    (hn : OwnerStep i m p p' o) (he : Entry (o.exec m) q e) :
    Entry m q e ∨ p.future = some e.waker ∧
      ∃ x, m.sleeps e.waker = .push x ∧ x.when = e.when := by
  cases hn with
  | @poll sync c g q' o hstep =>
      generalize hp : m.sleeps g = p₀ at hstep
      cases hstep with
      | @push x =>
          rcases he with he | he
          · rcases List.mem_cons.mp he with rfl | he
            · exact .inr ⟨rfl, x, hp, rfl⟩
            · exact .inl (.inl he)
          · exact .inl (.inr he)
      | _ => exact .inl he
  | _ => exact .inl he

/-- Every entry is that of a future that awaits its instant. -/
theorem Reachable.entry (h : Reachable s) {e : TimerEntry} (he : Entry s.mem (thread s) e) :
    Awaits s.mem e.waker e.when := by
  refine h.invariant (I := fun s => ∀ e, Entry s.mem (thread s) e →
    Awaits s.mem e.waker e.when) ?_ ?_ e he
  · rintro e (he | he) <;> cases he
  intro s s' a hr hi hs _ e he
  have hr : Reachable s := hr.reach
  refine Awaits.step ?_ hr hs
  rcases step_cases hs with ⟨b, q, o, rfl, hn, rfl⟩ | ⟨i, b, q, o, rfl, hn, rfl⟩ | ⟨d, rfl, rfl⟩
  · rw [thread_move] at he
    exact hi e (entry_of_timerStep (Timer.timerNext_step hn) he)
  · rw [thread_move_owner] at he
    rcases hn.entry he with he | ⟨hf, x, hp, hx⟩
    · exact hi e he
    · have hok := hr.sleepsOk e.waker
      refine ⟨(hr.timely i).lt_made hf, hok.of_busy (by simp [hp]), ?_⟩
      rw [hp]
      exact hx
  · exact hi e he

/-! ## What is owed -/

theorem OwnerStep.ready {p p' : OwnerPc} {o : Op} (hn : OwnerStep i m p p' o)
    (hf : (o.exec m).ready f = true) : m.ready f = true := by
  cases hn with
  | @woken c g =>
      by_cases hg : f = g
      · simp [Op.exec, hg] at hf
      · simpa [Op.exec, hg] using hf
  | _ => exact hf

/-- The timer thread raises the flag whose waker it calls. -/
theorem ready_of_timerStep {q q' : TimerPc} {o : Timer.Op} (h : TimerStep m.timer q q' o)
    (hf : ((Op.timer o).exec m).ready f = true) :
    m.ready f = true ∨ ∃ e, q = .wake e ∧ e.waker = f := by
  cases h with
  | @wake e =>
      by_cases hw : f = e.waker
      · exact .inr ⟨e, rfl, hw.symm⟩
      · exact .inl (by simpa [Op.exec, wakes, hw] using hf)
  | _ => exact .inl hf

/-- A flag is up for a future whose instant has come. -/
theorem Reachable.ready (h : Reachable s) (hf : s.mem.ready f = true) :
    ∃ t, Awaits s.mem f t ∧ t ≤ s.mem.timer.clock := by
  refine h.invariant (I := fun s => ∀ f, s.mem.ready f = true →
    ∃ t, Awaits s.mem f t ∧ t ≤ s.mem.timer.clock) (fun _ h => by cases h) ?_ f hf
  intro s s' a hr hi hs _ f hf
  have hr : Reachable s := hr.reach
  have hl := (later_of_step hs).clock
  suffices h : ∃ t, Awaits s.mem f t ∧ t ≤ s.mem.timer.clock by
    obtain ⟨t, ht, hle⟩ := h
    exact ⟨t, ht.step hr hs, Nat.le_trans hle hl⟩
  rcases step_cases hs with ⟨b, q, o, rfl, hn, rfl⟩ | ⟨i, b, q, o, rfl, hn, rfl⟩ | ⟨d, rfl, rfl⟩
  · rcases ready_of_timerStep (Timer.timerNext_step hn) hf with hf | ⟨e, he, rfl⟩
    · exact hi f hf
    · have hdue := Timer.Reachable.due hr.shown
      rw [thread_view, he] at hdue
      exact ⟨e.when, hr.entry (.inr he), hdue⟩
  · exact hi f (hn.ready hf)
  · exact hi f hf

/-- The waker of the entry will be called, or was called. -/
def Owed (m : Shared) (q : TimerPc) (e : TimerEntry) : Prop :=
  Entry m q e ∨ m.ready e.waker = true

/-- A wake-up is owed to `await_sync` once the future has pushed its entry, and it polls the
future again when its instant has come. -/
def OwnerPc.Waits (m : Shared) (q : TimerPc) : OwnerPc → Prop
  | .poll true _ f =>
      match m.sleeps f with
      | .idle x _ => x.started = true → x.when ≤ m.timer.clock
      | .unlock x | .notifyOne x => Owed m q ⟨x.when, f⟩
      | _ => True
  | .block _ f =>
      (m.sleeps f).future.started = true ∧ Owed m q ⟨(m.sleeps f).future.when, f⟩
  | _ => True

theorem Owed.timerStep {q q' : TimerPc} {o : Timer.Op} {e : TimerEntry} (h : Owed m q e)
    (hn : TimerStep m.timer q q' o) : Owed ((Op.timer o).exec m) q' e := by
  rcases h with (hq | rfl) | hr
  · cases hn with
    | @pop e' =>
        by_cases he : e = e'
        · exact .inl (.inr (by rw [he]))
        · exact .inl (.inl ((List.mem_erase_of_ne he).mpr hq))
    | _ => exact .inl (.inl hq)
  · cases hn
    exact .inr (by simp [Op.exec, wakes])
  · cases hn with
    | @wake e' =>
        by_cases he : e.waker = e'.waker
        · exact .inr (by simp [Op.exec, wakes, he])
        · exact .inr (by simpa [Op.exec, wakes, he] using hr)
    | _ => exact .inr hr

/-- An owner takes no wake-up but its own. -/
theorem Owed.ownerStep {p p' : OwnerPc} {q : TimerPc} {o : Op} {e : TimerEntry} (h : Owed m q e)
    (hn : OwnerStep i m p p' o) (hp : p.future ≠ some e.waker) : Owed (o.exec m) q e := by
  cases hn with
  | @poll sync c g q' o hstep =>
      rcases h with (hq | hq) | hr
      · refine .inl (.inl ?_)
        obtain ⟨-, ⟨e', -, he', -⟩ | ⟨he', -⟩⟩ := hstep.effect
        · show e ∈ (o.exec m.timer).queue
          rw [he']
          exact List.mem_cons_of_mem _ hq
        · show e ∈ (o.exec m.timer).queue
          rwa [he']
      · exact .inl (.inr hq)
      · exact .inr hr
  | @woken c g =>
      refine h.imp_right fun hr => ?_
      have hne : e.waker ≠ g := by
        rintro rfl
        exact hp rfl
      simpa [Op.exec, hne] using hr
  | _ => exact h

/-- An owner polls no future but its own. -/
theorem OwnerStep.sleeps_eq {p p' : OwnerPc} {o : Op} (hn : OwnerStep i m p p' o)
    (hf : p.future ≠ some f) (hlt : f < m.made) : (o.exec m).sleeps f = m.sleeps f := by
  cases hn with
  | newSleep => simp [Op.exec, Nat.ne_of_lt hlt]
  | @poll sync c g p o hstep =>
      have hne : f ≠ g := by
        rintro rfl
        exact hf rfl
      simp [Op.exec, hne]
  | _ => rfl

/-- What the other threads leave an owner with. -/
theorem OwnerPc.Waits.mono {p : OwnerPc} {q q' : TimerPc} (h : p.Waits m q)
    (hs : ∀ f, p.future = some f → m'.sleeps f = m.sleeps f)
    (hc : m.timer.clock ≤ m'.timer.clock)
    (ho : ∀ e : TimerEntry, p.future = some e.waker → Owed m q e → Owed m' q' e) :
    p.Waits m' q' := by
  cases p with
  | poll sync c f =>
      cases sync with
      | false => trivial
      | true =>
          simp only [Waits, hs f rfl] at h ⊢
          split
          case h_1 hp =>
            rw [hp] at h
            exact fun hst => Nat.le_trans (h hst) hc
          case h_2 hp | h_3 hp =>
            rw [hp] at h
            exact ho _ rfl h
          case h_4 => trivial
  | block c f =>
      simp only [Waits, hs f rfl] at h ⊢
      exact ⟨h.1, ho _ rfl h.2⟩
  | _ => trivial

/-- A step of an owner that waits. -/
theorem OwnerStep.waits {p p' : OwnerPc} {o : Op} {q : TimerPc} (hn : OwnerStep i m p p' o)
    (h : p.Waits m q) (hok : SleepsOk m)
    (hblock : ∀ c f, p = .block c f → busy (m.sleeps f) = false ∧
      (m.ready f = true → (m.sleeps f).future.when ≤ m.timer.clock)) :
    p'.Waits (o.exec m) q := by
  cases hn with
  | newSleep => cases ‹Bool› <;> simp [OwnerPc.Waits, Op.exec]
  | @poll sync c f p o hstep =>
      cases sync with
      | false =>
          cases p with
          | idle x last => cases last with
            | none => trivial
            | some r => cases r <;> trivial
          | _ => trivial
      | true =>
          have hok := hok f
          simp only [OwnerPc.Waits] at h
          generalize m.sleeps f = p₀ at hstep h hok
          cases hstep with
          | first | lock => simp [OwnerPc.polled, OwnerPc.Waits, Op.exec]
          | ready => trivial
          | pending hs hlt => exact absurd (h hs) (Nat.not_le_of_lt hlt)
          | @push x =>
              simp only [OwnerPc.polled, OwnerPc.Waits, Op.exec, Function.update_self]
              exact .inl (.inl List.mem_cons_self)
          | @unlock x =>
              simp only [OwnerPc.polled, OwnerPc.Waits, Op.exec, Function.update_self]
              exact h
          | @notifyOne x =>
              have hs : x.started = true := hok.of_busy (by simp)
              simp only [OwnerPc.polled, OwnerPc.Waits, Op.exec, Function.update_self, if_true]
              exact ⟨hs, h⟩
  | @woken c f hr =>
      obtain ⟨hidle, hle⟩ := hblock c f rfl
      have hle := hle hr
      simp only [OwnerPc.Waits, Op.exec]
      cases hp : m.sleeps f with
      | idle x last => exact fun _ => by simpa [hp, SleepPc.future] using hle
      | _ => simp [hp, busy] at hidle
  | _ => trivial

/-- A future that its owner does not poll is in no poll. -/
theorem Reachable.not_busy (h : Reachable s) (hf : (owner s i).future = some f)
    (hp : ∀ sync c, owner s i ≠ .poll sync c f) : busy (s.mem.sleeps f) = false := by
  refine Bool.eq_false_iff.mpr fun hb => ?_
  obtain ⟨j, sync, c, hj⟩ := h.polled hb
  have hij : i = j := h.unique hf (by rw [hj]; rfl)
  subst hij
  exact hp sync c hj

theorem Reachable.waits (h : Reachable s) (i : OwnerId) :
    (owner s i).Waits s.mem (thread s) := by
  refine h.invariant (I := fun s => ∀ i, (owner s i).Waits s.mem (thread s)) ?_ ?_ i
  · exact fun _ => trivial
  intro s s' a hr hi hs _ i
  have hr : Reachable s := hr.reach
  have hl := (later_of_step hs).clock
  rcases step_cases hs with ⟨b, q, o, rfl, hn, rfl⟩ | ⟨j, b, q, o, rfl, hn, rfl⟩ | ⟨d, rfl, rfl⟩
  · rw [owner_move_timer, thread_move]
    exact (hi i).mono (fun _ _ => rfl) hl fun e _ he => he.timerStep (Timer.timerNext_step hn)
  · rw [thread_move_owner]
    by_cases hij : i = j
    · subst hij
      rw [owner_move]
      refine hn.waits (hi i) hr.sleepsOk fun c f hp => ?_
      have hfut : (owner s i).future = some f := by rw [hp]; rfl
      refine ⟨hr.not_busy hfut (fun _ _ h => by rw [hp] at h; cases h), fun hf => ?_⟩
      obtain ⟨t, ht, hle⟩ := hr.ready hf
      exact ht.when_eq ▸ hle
    · rw [owner_move_of_ne s o hij]
      have hne : ∀ f, (owner s i).future = some f → (owner s j).future ≠ some f :=
        fun f hf hg => hij (hr.unique hf hg)
      exact (hi i).mono (fun f hf => hn.sleeps_eq (hne f hf) ((hr.timely i).lt_made hf)) hl
        fun e he ho => ho.ownerStep hn (hne _ he)
  · rw [owner_move_time, thread_move_time]
    exact (hi i).mono (fun _ _ => rfl) hl fun e _ he => he

end MVSync.Clocks
