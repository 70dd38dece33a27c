import MVSync.Clock.System

/-!
# The rate of a clock

A wait on a clock that is enabled comes to its end one tick after `last_tick` or later, and
sets `last_tick` to that instant.  So the ends of its waits are a tick apart (`rate`),
whoever polls them and however late the timer thread is.
-/

namespace MVSync.Clocks

open Concurrency
open Timer (Instant Duration SleepId Sleep Poll SleepPc TimerPc TimerInput SleepStep)
open Function (update)

variable {s s' s₀ : clocks.State} {a : clocks.Action} {m m' : Shared} {i : OwnerId} {c : Clock}
  {f : SleepId} {t : Instant}

/-- The clock of an owner. -/
def OwnerPc.clock : OwnerPc → Option Clock
  | .absent => none
  | .idle c | .wait _ c | .newSleep _ c _ | .poll _ c _ | .pending c _ | .block c _ | .set c =>
      some c

/-- No poll of the future is ready before the instant `t`. -/
def NotBefore (t : Instant) (now : Instant) (x : Sleep) : Prop :=
  t ≤ if x.started then x.when else now + x.duration

/-- The wait that an owner is in does not end before its tick is over. -/
def OwnerPc.Timely (m : Shared) : OwnerPc → Prop
  | .absent => True
  | .idle c | .wait _ c => c.lastTick ≤ m.timer.clock
  | .newSleep _ c d => c.lastTick ≤ m.timer.clock ∧ c.lastTick + c.tick ≤ m.timer.clock + d
  | .poll _ c f | .pending c f | .block c f =>
      c.lastTick ≤ m.timer.clock ∧ f < m.made ∧
        NotBefore (c.lastTick + c.tick) m.timer.clock (m.sleeps f).future
  | .set c => c.lastTick + c.tick ≤ m.timer.clock

/-! ## What every step keeps -/

/-- Time goes on, and no future is ready earlier than before. -/
structure Later (m m' : Shared) : Prop where
  clock : m.timer.clock ≤ m'.timer.clock
  made : m.made ≤ m'.made
  sleeps : ∀ f < m.made, ∀ t, NotBefore t m.timer.clock (m.sleeps f).future →
    NotBefore t m'.timer.clock (m'.sleeps f).future

theorem NotBefore.mono {now now' : Instant} {x : Sleep} (h : NotBefore t now x)
    (hle : now ≤ now') : NotBefore t now' x := by
  cases hs : x.started with
  | true => simpa [NotBefore, hs] using h
  | false =>
      have h : t ≤ now + x.duration := by simpa [NotBefore, hs] using h
      simpa [NotBefore, hs] using Nat.le_trans h (Nat.add_le_add_right hle _)

theorem OwnerPc.Timely.mono {p : OwnerPc} (h : p.Timely m) (hl : Later m m') : p.Timely m' := by
  have hclock := hl.clock
  cases p with
  | absent => trivial
  | idle c | wait _ c => exact Nat.le_trans h hclock
  | newSleep _ c d =>
      exact ⟨Nat.le_trans h.1 hclock, Nat.le_trans h.2 (Nat.add_le_add_right hclock d)⟩
  | poll _ c f | pending c f | block c f =>
      exact ⟨Nat.le_trans h.1 hclock, Nat.lt_of_lt_of_le h.2.1 hl.made, hl.sleeps f h.2.1 _ h.2.2⟩
  | set c => exact Nat.le_trans h hclock

theorem OwnerPc.Timely.lastTick_le {p : OwnerPc} (h : p.Timely m) (hc : p.clock = some c) :
    c.lastTick ≤ m.timer.clock := by
  cases p with
  | absent => cases hc
  | idle | wait =>
      cases hc
      exact h
  | newSleep | poll | pending | block =>
      cases hc
      exact h.1
  | set =>
      cases hc
      exact Nat.le_of_add_right_le h

/-- A poll does not make the future ready earlier. -/
theorem notBefore_of_sleepStep {n : Timer.Shared} {p p' : SleepPc} {o : Timer.Op}
    (hn : SleepStep f n p p' o) (h : NotBefore t n.clock p.future) :
    NotBefore t (o.exec n).clock p'.future := by
  cases hn with
  | first hs => simpa [NotBefore, SleepPc.future, hs] using h
  | _ => exact h

theorem OwnerStep.later {p p' : OwnerPc} {o : Op} (h : OwnerStep i m p p' o) :
    Later m (o.exec m) := by
  cases h with
  | newSleep =>
      refine ⟨Nat.le_refl _, Nat.le_succ _, fun f hf t ht => ?_⟩
      simpa [Op.exec, Nat.ne_of_lt hf] using ht
  | @poll sync c g p o hn =>
      have hclock : (o.exec m.timer).clock = m.timer.clock := hn.effect.1
      refine ⟨Nat.le_of_eq hclock.symm, Nat.le_refl _, fun f _ t ht => ?_⟩
      by_cases hf : f = g
      · subst hf
        simpa [Op.exec] using notBefore_of_sleepStep hn ht
      · simpa [Op.exec, hf, hclock] using ht
  | _ => exact ⟨Nat.le_refl _, Nat.le_refl _, fun _ _ _ => id⟩

/-- The timer thread does not turn the clock. -/
theorem clock_of_timerStep {n : Timer.Shared} {p p' : TimerPc} {o : Timer.Op}
    (h : Timer.TimerStep n p p' o) : (o.exec n).clock = n.clock := by
  cases h <;> rfl

theorem later_of_step (hs : s.step a = some s') : Later s.mem s'.mem := by
  rcases step_cases hs with ⟨b, q, o, rfl, hn, rfl⟩ | ⟨i, b, q, o, rfl, hn, rfl⟩ | ⟨d, rfl, rfl⟩
  · have hclock := clock_of_timerStep (Timer.timerNext_step hn)
    have hle : s.mem.timer.clock ≤ (o.exec s.mem.timer).clock := Nat.le_of_eq hclock.symm
    exact ⟨hle, Nat.le_refl _, fun _ _ _ h => h.mono hle⟩
  · exact hn.later
  · exact ⟨Nat.le_add_right _ _, Nat.le_refl _, fun _ _ _ h => h.mono (Nat.le_add_right _ _)⟩

/-! ## The end of a wait -/

theorem OwnerStep.timely {p p' : OwnerPc} {o : Op} (hn : OwnerStep i m p p' o)
    (h : p.Timely m) : p'.Timely (o.exec m) := by
  have hl := hn.later
  cases hn with
  | new hc => exact Nat.le_of_eq hc
  | switch | disabled | wait => exact h
  | tick => exact Nat.le_refl _
  | @due sync c hle =>
      have hlast : c.lastTick ≤ m.timer.clock := h
      simp only [Clock.elapsed] at hle
      show c.lastTick + c.tick ≤ m.timer.clock
      lia
  | @early sync c hlt =>
      have hlast : c.lastTick ≤ m.timer.clock := h
      refine ⟨h, ?_⟩
      simp only [Clock.elapsed] at hlt ⊢
      show c.lastTick + c.tick ≤ m.timer.clock + _
      lia
  | newSleep =>
      refine ⟨h.1, Nat.lt_succ_self _, ?_⟩
      simpa [Op.exec, NotBefore, SleepPc.future] using h.2
  | @poll sync c f p o hstep =>
      have hkept : (OwnerPc.poll sync c f).Timely ((Op.poll f p o).exec m) := h.mono hl
      generalize m.sleeps f = p₀ at hstep
      cases hstep with
      | @ready x _ hs hle =>
          -- the future is ready at its instant
          have hnot : c.lastTick + c.tick ≤ x.when := by
            simpa [NotBefore, Op.exec, SleepPc.future, hs] using hkept.2.2
          exact Nat.le_trans hnot hle
      | pending | notifyOne => cases sync <;> exact hkept
      | _ => exact hkept
  | again => exact h
  | drop => exact h.1
  | woken => exact h
  | complete => exact Nat.le_refl _

theorem Reachable.timely (h : Reachable s) (i : OwnerId) : (owner s i).Timely s.mem := by
  refine h.invariant (I := fun s => ∀ i, (owner s i).Timely s.mem) ?_ ?_ i
  · exact fun _ => trivial
  · intro s s' a _ hi hs _ i
    have hl := later_of_step hs
    rcases step_cases hs with ⟨b, q, o, rfl, -, rfl⟩ | ⟨j, b, q, o, rfl, hn, rfl⟩ | ⟨d, rfl, rfl⟩
    · rw [owner_move_timer]
      exact (hi i).mono hl
    · by_cases hj : i = j
      · subst hj
        rw [owner_move]
        exact hn.timely (hi i)
      · rw [owner_move_of_ne s o hj]
        exact (hi i).mono hl
    · rw [owner_move_time]
      exact (hi i).mono hl

/-! ## The ends of the waits -/

theorem OwnerPc.clock_polled {sync : Bool} {p : SleepPc} :
    (OwnerPc.polled sync c f p).clock = some c := by
  unfold OwnerPc.polled
  split
  · rfl
  · cases sync <;> rfl
  · rfl

/-- What an operation of the owner `i` does to the clock `c`, which is `c'` then. -/
inductive Ticked (i : OwnerId) (m m' : Shared) (c c' : Clock) : Prop where
  | other (hn : m'.completed i = m.completed i) (hl : c.lastTick ≤ c'.lastTick)
  /-- A wait comes to its end. -/
  | complete (hn : m'.completed i = m.completed i + 1) (hl : c'.lastTick = m.timer.clock)
      (hle : c.lastTick + c.tick ≤ m.timer.clock)

theorem OwnerStep.ticked {p p' : OwnerPc} {o : Op} (hn : OwnerStep i m p p' o)
    (hc : p.clock = some c) (ht : p.Timely m) :
    ∃ c', p'.clock = some c' ∧ c'.tick = c.tick ∧ Ticked i m (o.exec m) c c' := by
  cases hn with
  | new => cases hc
  | tick =>
      cases hc
      exact ⟨_, rfl, rfl, .other rfl ht⟩
  | complete =>
      cases hc
      exact ⟨_, rfl, rfl, .complete (by simp [Op.exec]) rfl ht⟩
  | poll =>
      cases hc
      exact ⟨_, OwnerPc.clock_polled, rfl, .other rfl (Nat.le_refl _)⟩
  | _ =>
      cases hc
      exact ⟨_, rfl, rfl, .other rfl (Nat.le_refl _)⟩

/-- What the other threads leave as it is. -/
theorem OwnerStep.completed_of_ne {p p' : OwnerPc} {o : Op} {j : OwnerId}
    (hn : OwnerStep j m p p' o) (hj : i ≠ j) : (o.exec m).completed i = m.completed i := by
  cases hn with
  | complete => simp [Op.exec, hj]
  | _ => rfl

/-- How the clock `c` of the owner `i` goes on from the state `s₀`. -/
structure Since (s₀ : clocks.State) (i : OwnerId) (c : Clock) (s : clocks.State) : Prop where
  clock : ∃ c', (owner s i).clock = some c' ∧ c'.tick = c.tick ∧
    (s.mem.completed i = s₀.mem.completed i ∨
      s₀.mem.timer.clock + (s.mem.completed i - s₀.mem.completed i - 1) * c.tick ≤ c'.lastTick)
  completed : s₀.mem.completed i ≤ s.mem.completed i
  time : s₀.mem.timer.clock ≤ s.mem.timer.clock

/-- One more end of a wait, a tick after the last one. -/
theorem rate_step {n n₀ now now₀ last tick : Nat} (hn : n₀ ≤ n) (htime : now₀ ≤ now)
    (hlast : n = n₀ ∨ now₀ + (n - n₀ - 1) * tick ≤ last) (hle : last + tick ≤ now) :
    now₀ + (n + 1 - n₀ - 1) * tick ≤ now := by
  have hsub : n + 1 - n₀ - 1 = n - n₀ := by omega
  rw [hsub]
  rcases hlast with rfl | hlast
  · simpa using htime
  · obtain ⟨k, rfl⟩ := Nat.exists_eq_add_of_le hn
    cases k with
    | zero => simpa using htime
    | succ k =>
        have hk : n₀ + (k + 1) - n₀ = k + 1 := by omega
        rw [hk] at hlast ⊢
        rw [Nat.succ_mul]
        simp only [Nat.add_sub_cancel] at hlast
        omega

theorem Since.step (h : Since s₀ i c s) (hr : Reachable s) (hs : s.step a = some s') :
    Since s₀ i c s' := by
  obtain ⟨c', hc', htick, hlast⟩ := h.clock
  have hcompl := h.completed
  have htime := h.time
  have hl := (later_of_step hs).clock
  have same : owner s' i = owner s i → s'.mem.completed i = s.mem.completed i →
      Since s₀ i c s' := by
    intro hpc hn
    exact ⟨⟨c', by rw [hpc, hc'], htick, by rwa [hn]⟩, by rwa [hn], Nat.le_trans htime hl⟩
  rcases step_cases hs with ⟨b, q, o, rfl, -, rfl⟩ | ⟨j, b, q, o, rfl, hn, rfl⟩ | ⟨d, rfl, rfl⟩
  · exact same (owner_move_timer _ _ _ _) rfl
  · by_cases hj : i = j
    · subst hj
      obtain ⟨c'', hc'', htick', hcase⟩ := hn.ticked hc' (hr.timely i)
      have hpc : (owner (s.move (.owner i) q o) i).clock = some c'' := by rw [owner_move, hc'']
      have hmem : (s.move (.owner i) q o).mem = o.exec s.mem := rfl
      cases hcase with
      | other hn' hle =>
          refine ⟨⟨c'', hpc, htick'.trans htick, ?_⟩, ?_, Nat.le_trans htime hl⟩
          · rw [hmem, hn']
            exact hlast.imp_right fun h => Nat.le_trans h hle
          · rwa [hmem, hn']
      | complete hn' hset hle =>
          refine ⟨⟨c'', hpc, htick'.trans htick, .inr ?_⟩, ?_, Nat.le_trans htime hl⟩
          · rw [hmem, hn', hset]
            rw [htick] at hle
            exact Nat.le_trans (rate_step hcompl htime hlast hle) (Nat.le_refl _)
          · rw [hmem, hn']
            exact Nat.le_succ_of_le hcompl
    · exact same (owner_move_of_ne s o hj q) (hn.completed_of_ne hj)
  · exact same (owner_move_time _ _ _ _) rfl

/-- Every clock has a tick. -/
theorem Reachable.tick_pos (h : Reachable s) (hc : (owner s i).clock = some c) : 0 < c.tick := by
  refine h.pc_invariant (i := .owner i)
    (I := fun p : OwnerPc => ∀ c, p.clock = some c → 0 < c.tick) (fun c hc => by cases hc) ?_ c hc
  intro b p p' m o hn hi c' hc'
  cases ownerNext_step hn with
  | new _ ht =>
      cases hc'
      exact ht
  | poll =>
      rw [OwnerPc.clock_polled] at hc'
      exact hi c' hc'
  | @switch c | @tick c | @complete c =>
      cases hc'
      exact hi c rfl
  | _ => exact hi c' hc'

/-- The rate of a clock.  Of the waits on a clock that come to their end in some stretch of
a run, while it is enabled, each but the first one takes a tick. -/
theorem rate (h : Reachable s) (hr : System.Reach s s') (hc : (owner s i).clock = some c) :
    0 < c.tick ∧ (s'.mem.completed i - s.mem.completed i - 1) * c.tick ≤
      s'.mem.timer.clock - s.mem.timer.clock := by
  refine ⟨h.tick_pos hc, ?_⟩
  have hsince : Since s i c s' := by
    refine hr.invariant (I := Since s i c) ⟨⟨c, hc, rfl, .inl rfl⟩, Nat.le_refl _, Nat.le_refl _⟩ ?_
    intro s₁ s₂ a hr₁ hi hs _
    exact hi.step (h.trans hr₁.reach) hs
  obtain ⟨c', hc', htick, hlast⟩ := hsince.clock
  have hr' : Reachable s' := h.trans hr
  have hle := (hr'.timely i).lastTick_le hc'
  rcases hlast with hn | hlast
  · simp [hn]
  · rw [← htick] at hlast ⊢
    exact Nat.le_sub_of_add_le' (Nat.le_trans hlast hle)

/-- The schedule that makes a clock with a tick of 20 microseconds. -/
def newSchedule : List clocks.Action := [call 0 (.new 50000)]

/-- Two waits, each of them called late. -/
def waitSchedule : List clocks.Action :=
  let wait := [pass 20, call 0 .wait, call 0 .proceed, call 0 .proceed]
  wait ++ wait

/-- The second wait ends a tick after the first one. -/
theorem rate_waitSchedule :
    0 < 20 ∧ (((init.after newSchedule).after waitSchedule).mem.completed 0 -
        (init.after newSchedule).mem.completed 0 - 1) * 20 ≤
      ((init.after newSchedule).after waitSchedule).mem.timer.clock -
        (init.after newSchedule).mem.timer.clock :=
  rate (c := ⟨0, 20, true⟩) (.after newSchedule .init) (.after waitSchedule .init) (by decide)

example : ((init.after newSchedule).after waitSchedule).mem.completed 0 = 2 := by decide

end MVSync.Clocks
