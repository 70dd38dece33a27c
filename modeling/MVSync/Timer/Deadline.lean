import MVSync.Timer.System

/-!
# How long the timer thread sleeps

The timer thread looks at the heap under one lock, and takes the lock again to
wait without another look.  An entry that is pushed in between, and whose
`notify_one` comes before the wait, is overlooked: nobody is waiting yet when it
is notified, and a notification is not kept.  A timed wait is also too long by the
time that passed since the thread read the clock (`Oversleeps`).

Otherwise what the thread has seen still holds when it falls asleep, up to entries
whose notification is still to come, and each of those wakes it
(`InTime.step`).
-/

namespace MVSync.Timer

open Concurrency

variable {duration : SleepId → Duration} {s s' : timer.State} {a : timer.Action} {m : Shared}
  {d : Option Instant} {e : TimerEntry}

/-- A wait with this deadline ends in time for the entry. -/
def Covers (d : Option Instant) (e : TimerEntry) : Prop := ∃ t, d = some t ∧ t ≤ e.when

/-- The deadline of a wait that begins now. -/
def Shared.deadline (m : Shared) (timed : Option Timed) : Option Instant :=
  (timed.map Timed.waitDuration).map (m.clock + ·)

/-- The poll has pushed its entry, and its `notify_one` is still to come. -/
def SleepPc.notifies : SleepPc → Bool
  | .unlock _ | .notifyOne _ => true
  | _ => false

/-- No poll is between its push and its `notify_one`. -/
def Quiet (s : timer.State) : Prop := ∀ f, (sleep s f).notifies = false

/-- If the timer thread sleeps on `SIGNAL` and every push was notified, the heap is
empty or the thread wakes up in time for its first entry. -/
def InTime (s : timer.State) : Prop :=
  ∀ d, s.mem.asleep = some d → Quiet s →
    s.mem.queue = [] ∨ ∃ t, d = some t ∧ ∀ e ∈ s.mem.queue, t ≤ e.when

/-- The wait would end too late for an entry that was pushed since the thread looked
at the heap, or the clock has moved since the thread read it. -/
def Late (m : Shared) (timed : Option Timed) : Prop :=
  (∃ e ∈ m.pushed, ¬Covers (m.deadline timed) e) ∨ ∃ x, timed = some x ∧ x.now < m.clock

/-- The timer thread falls asleep too late, and nobody is about to notify it. -/
def Oversleeps (s : timer.State) (a : timer.Action) : Prop :=
  a.tid = .timer ∧ Quiet s ∧ ∃ timed, thread s = .wait timed ∧ Late s.mem timed

theorem inTime_of_covers (h : ∀ e ∈ m.queue, Covers d e) :
    m.queue = [] ∨ ∃ t, d = some t ∧ ∀ e ∈ m.queue, t ≤ e.when := by
  cases hq : m.queue with
  | nil => exact .inl rfl
  | cons e es =>
      rw [hq] at h
      obtain ⟨t, rfl, -⟩ := h e List.mem_cons_self
      refine .inr ⟨t, rfl, fun e' he' => ?_⟩
      obtain ⟨t', ht', hle⟩ := h e' he'
      exact Option.some.inj ht' ▸ hle

/-! ## What the timer thread has seen -/

/-- What `peek` returns is not later than any entry. -/
theorem Shared.peek_covers (he : e ∈ m.queue) : Covers m.peek e := by
  have hw : e.when ∈ m.queue.map TimerEntry.when := List.mem_map_of_mem he
  cases hp : m.peek with
  | none =>
      rw [Shared.peek, List.min?_eq_none_iff] at hp
      simp [hp] at hw
  | some t =>
      rw [Shared.peek, List.min?_eq_some_iff] at hp
      exact ⟨t, rfl, hp.2 _ hw⟩

/-- What `peek` returns is the instant of an entry. -/
theorem Shared.peek_mem {t : Instant} (hp : m.peek = some t) : ∃ e ∈ m.queue, e.when = t := by
  rw [Shared.peek, List.min?_eq_some_iff] at hp
  exact List.mem_map.mp hp.1

/-- What the timer thread knows of the heap after a `peek` that returned `next`: an
entry that is due before was pushed since. -/
structure Looked (m : Shared) (next : Option Instant) : Prop where
  seen : ∀ e ∈ m.queue, e ∈ m.pushed ∨ Covers next e
  pushed : ∀ e ∈ m.pushed, e ∈ m.queue
  first : ∀ t, next = some t → ∃ e ∈ m.queue, e.when = t

/-- A timed wait was computed from a clock that has not gone back. -/
structure Timed.Ok (x : Timed) (m : Shared) : Prop where
  sum : x.now + x.waitDuration = x.t
  past : x.now ≤ m.clock

/-- What the timer thread knows on its way from a `peek` to a wait. -/
def TimerPc.Knows (m : Shared) : TimerPc → Prop
  | .decide next => Looked m next
  | .lock timed | .wait timed => Looked m (timed.map Timed.t) ∧ ∀ x, timed = some x → x.Ok m
  | _ => True

/-- The invariant of the timer thread. -/
structure ThreadOk (m : Shared) (p : TimerPc) : Prop where
  knows : p.Knows m
  asleep : ∀ d, m.asleep = some d → p = .asleep

theorem ThreadOk.awake {p : TimerPc} (h : ThreadOk m p) (hp : p ≠ .asleep) : m.asleep = none := by
  cases ha : m.asleep with
  | none => rfl
  | some d => exact absurd (h.asleep d ha) hp

theorem ThreadOk.of_awake {p : TimerPc} (hk : p.Knows m) (ha : m.asleep = none) : ThreadOk m p :=
  ⟨hk, by simp [ha]⟩

/-- One step of the timer thread. -/
theorem TimerStep.ok {p p' : TimerPc} {o : Op} (hn : TimerStep m p p' o) (h : ThreadOk m p) :
    ThreadOk (o.exec m) p' := by
  cases hn with
  | peek _ =>
      refine .of_awake ⟨?_, ?_, ?_⟩ (h.awake (by simp))
      · exact fun e he => .inr (Shared.peek_covers he)
      · simp [Op.exec]
      · exact fun t ht => Shared.peek_mem ht
  | nothing =>
      have hlook : Looked m none := h.knows
      exact .of_awake ⟨hlook, by simp⟩ (h.awake (by simp))
  | @notDue t hlt =>
      have hlook : Looked m (some t) := h.knows
      refine .of_awake ⟨hlook, fun x hx => ?_⟩ (h.awake (by simp))
      obtain rfl := Option.some.inj hx
      exact ⟨Nat.add_sub_cancel' (Nat.le_of_lt hlt), Nat.le_refl _⟩
  | lock _ =>
      obtain ⟨hlook, hok⟩ := h.knows
      refine .of_awake ⟨?_, fun x hx => ?_⟩ (h.awake (by simp))
      · exact ⟨hlook.seen, hlook.pushed, hlook.first⟩
      · exact ⟨(hok x hx).sum, (hok x hx).past⟩
  | wait => exact ⟨trivial, fun _ _ => rfl⟩
  | notified ha => exact .of_awake trivial ha
  | timeout _ _ => exact .of_awake trivial rfl
  | spurious _ => exact .of_awake trivial rfl
  | _ => exact .of_awake trivial (h.awake (by simp))

/-- What the timer thread knows stays true while entries are only added. -/
theorem Looked.mono {m' : Shared} {next : Option Instant} (h : Looked m next)
    (hq : ∀ e, e ∈ m.queue → e ∈ m'.queue)
    (hseen : ∀ e ∈ m'.queue, e ∈ m.queue ∨ e ∈ m'.pushed)
    (hp : ∀ e, e ∈ m.pushed → e ∈ m'.pushed) (hpush : ∀ e ∈ m'.pushed, e ∈ m'.queue) :
    Looked m' next where
  seen := by
    intro e he
    rcases hseen e he with he | he
    · exact (h.seen e he).imp_left (hp e)
    · exact .inl he
  pushed := hpush
  first := by
    intro t ht
    obtain ⟨e, he, hw⟩ := h.first t ht
    exact ⟨e, hq e he, hw⟩

theorem TimerPc.Knows.mono {m' : Shared} {p : TimerPc} (h : p.Knows m)
    (hl : ∀ next, Looked m next → Looked m' next) (hc : m.clock ≤ m'.clock) : p.Knows m' := by
  have hok : ∀ x : Timed, x.Ok m → x.Ok m' := fun x hx => ⟨hx.sum, Nat.le_trans hx.past hc⟩
  cases p with
  | decide next => exact hl next h
  | lock timed => exact ⟨hl _ h.1, fun x hx => hok x (h.2 x hx)⟩
  | wait timed => exact ⟨hl _ h.1, fun x hx => hok x (h.2 x hx)⟩
  | _ => trivial

/-- What a step of a poll does to the heap and to the sleep of the timer thread. -/
theorem SleepStep.effect {f : SleepId} {p p' : SleepPc} {o : Op} (hn : SleepStep f m p p' o) :
    (o.exec m).clock = m.clock ∧
      ((∃ e, p'.notifies = true ∧ (o.exec m).queue = e :: m.queue ∧
          (o.exec m).pushed = e :: m.pushed ∧ (o.exec m).asleep = m.asleep) ∨
        ((o.exec m).queue = m.queue ∧ (o.exec m).pushed = m.pushed ∧
          ((o.exec m).asleep = m.asleep ∧ (p.notifies = true → p'.notifies = true) ∨
            (o.exec m).asleep = none))) := by
  cases hn with
  | push => exact ⟨rfl, .inl ⟨_, rfl, rfl, rfl, rfl⟩⟩
  | notifyOne => exact ⟨rfl, .inr ⟨rfl, rfl, .inr rfl⟩⟩
  | _ => exact ⟨rfl, .inr ⟨rfl, rfl, .inl ⟨rfl, by simp [SleepPc.notifies]⟩⟩⟩

/-- A step of a poll keeps what the timer thread knows. -/
theorem SleepStep.ok {f : SleepId} {p p' : SleepPc} {q : TimerPc} {o : Op}
    (hn : SleepStep f m p p' o) (h : ThreadOk m q) : ThreadOk (o.exec m) q := by
  obtain ⟨hclock, ⟨e, -, hq, hp, ha⟩ | ⟨hq, hp, ha⟩⟩ := hn.effect
  · refine ⟨h.knows.mono (fun next hl => hl.mono ?_ ?_ ?_ ?_) (Nat.le_of_eq hclock.symm),
      fun d hd => ?_⟩
    · exact fun e' he' => by simp [hq, he']
    · exact fun e' he' => by
        rw [hq, List.mem_cons] at he'
        simpa [hp, or_assoc] using he'.symm.imp_right .inl
    · exact fun e' he' => by simp [hp, he']
    · exact fun e' he' => by
        rw [hp, List.mem_cons] at he'
        rw [hq, List.mem_cons]
        exact he'.imp_right (hl.pushed e')
    · exact h.asleep d (ha ▸ hd)
  · refine ⟨h.knows.mono (fun next hl => hl.mono ?_ ?_ ?_ ?_) (Nat.le_of_eq hclock.symm),
      fun d hd => ?_⟩
    · exact fun e' he' => by rwa [hq]
    · exact fun e' he' => .inl (hq ▸ he')
    · exact fun e' he' => by rwa [hp]
    · exact fun e' he' => by
        rw [hp] at he'
        rw [hq]
        exact hl.pushed e' he'
    · rcases ha with ⟨ha, -⟩ | ha
      · exact h.asleep d (ha ▸ hd)
      · simp [ha] at hd

theorem ThreadOk.init : ThreadOk (init duration).mem (thread (init duration)) :=
  .of_awake trivial rfl

theorem ThreadOk.step (h : ThreadOk s.mem (thread s)) (hs : s.step a = some s') :
    ThreadOk s'.mem (thread s') := by
  rcases step_cases hs with ⟨c, q, o, rfl, hn, rfl⟩ | ⟨f, q, o, rfl, hn, rfl⟩ | ⟨d, rfl, rfl⟩
  · rw [thread_move]
    exact hn.ok h
  · rw [thread_move_sleep]
    exact hn.ok h
  · rw [thread_move_clock]
    refine ⟨h.knows.mono (fun next hl => ?_) (Nat.le_add_right _ _), h.asleep⟩
    exact ⟨hl.seen, hl.pushed, hl.first⟩

theorem Reachable.threadOk (h : Reachable duration s) : ThreadOk s.mem (thread s) :=
  h.invariant (I := fun s => ThreadOk s.mem (thread s)) .init fun _ _ hi hs _ => hi.step hs

/-! ## Sleeping in time -/

/-- The timer thread sleeps on `SIGNAL` only right after its wait. -/
theorem TimerStep.of_asleep {p p' : TimerPc} {o : Op} (hn : TimerStep m p p' o)
    (h : ThreadOk m p) (ha : (o.exec m).asleep = some d) :
    ∃ timed, p = .wait timed ∧ o = .wait (timed.map Timed.waitDuration) ∧
      d = m.deadline timed := by
  have hp' : p' = .asleep := (hn.ok h).asleep d ha
  subst hp'
  cases hn with
  | wait => exact ⟨_, rfl, rfl, (Option.some.inj ha).symm⟩

/-- A wait that is not late covers every entry. -/
theorem covers_of_not_late {timed : Option Timed} (h : ThreadOk m (.wait timed))
    (hl : ¬Late m timed) (he : e ∈ m.queue) : Covers (m.deadline timed) e := by
  obtain ⟨hlook, hok⟩ := h.knows
  rcases hlook.seen e he with hpushed | hseen
  · by_contra hc
    exact hl (.inl ⟨e, hpushed, hc⟩)
  · obtain ⟨t, ht, hle⟩ := hseen
    obtain ⟨x, rfl, rfl⟩ := Option.map_eq_some_iff.mp ht
    have hnow : ¬x.now < m.clock := fun hlt => hl (.inr ⟨x, rfl, hlt⟩)
    have hdeadline : m.clock + x.waitDuration ≤ x.t :=
      (hok x rfl).sum ▸ Nat.add_le_add_right (Nat.le_of_not_lt hnow) _
    exact ⟨m.clock + x.waitDuration, rfl, Nat.le_trans hdeadline hle⟩

/-- A late wait misses an entry. -/
theorem Late.not_covers {timed : Option Timed} (hl : Late m timed)
    (h : ThreadOk m (.wait timed)) : ∃ e ∈ m.queue, ¬Covers (m.deadline timed) e := by
  obtain ⟨hlook, hok⟩ := h.knows
  rcases hl with ⟨e, he, hc⟩ | ⟨x, rfl, hlt⟩
  · exact ⟨e, hlook.pushed e he, hc⟩
  · obtain ⟨e, he, hw⟩ := hlook.first x.t rfl
    refine ⟨e, he, fun hc => ?_⟩
    obtain ⟨t, ht, hle⟩ := hc
    obtain rfl : m.clock + x.waitDuration = t := Option.some.inj ht
    have hdeadline : x.t < m.clock + x.waitDuration :=
      (hok x rfl).sum ▸ Nat.add_lt_add_right hlt _
    exact Nat.not_le_of_lt hdeadline (hw ▸ hle)

/-- A step keeps the thread in time, unless it oversleeps. -/
theorem InTime.step (hi : InTime s) (hk : ThreadOk s.mem (thread s)) (ha : ¬Oversleeps s a)
    (hs : s.step a = some s') : InTime s' := by
  intro d hd hq
  rcases step_cases hs with ⟨c, q, o, rfl, hn, rfl⟩ | ⟨f, q, o, rfl, hn, rfl⟩ | ⟨δ, rfl, rfl⟩
  · have hquiet : Quiet s := fun f => by simpa using hq f
    obtain ⟨timed, hp, rfl, rfl⟩ := hn.of_asleep hk hd
    have hl : ¬Late s.mem timed := fun hl => ha ⟨rfl, hquiet, timed, hp, hl⟩
    show s.mem.queue = [] ∨ _
    exact inTime_of_covers fun e he => covers_of_not_late (hp ▸ hk) hl he
  · have hf : q.notifies = false := by simpa using hq f
    have hd' : (o.exec s.mem).asleep = some d := hd
    show (o.exec s.mem).queue = [] ∨ ∃ t, d = some t ∧ ∀ e ∈ (o.exec s.mem).queue, t ≤ e.when
    obtain ⟨-, ⟨e, hnot, -⟩ | ⟨hqueue, -, hasleep⟩⟩ := hn.effect
    · simp [hf] at hnot
    · rcases hasleep with ⟨hasleep, hnot⟩ | hasleep
      · have hquiet : Quiet s := by
          intro g
          by_cases hg : g = f
          · subst hg
            exact Bool.eq_false_iff.mpr fun hp => by simp [hnot hp] at hf
          · have hgq := hq g
            rwa [sleep_move_of_ne s o hg] at hgq
        rw [hqueue]
        exact hi d (hasleep ▸ hd') hquiet
      · simp [hasleep] at hd'
  · exact hi d hd fun f => by simpa using hq f

/-- A thread that oversleeps is not in time. -/
theorem Oversleeps.not_inTime (ha : Oversleeps s a) (hk : ThreadOk s.mem (thread s))
    (hs : s.step a = some s') : ¬InTime s' := by
  obtain ⟨htid, hquiet, timed, hp, hl⟩ := ha
  rcases step_cases hs with ⟨c, q, o, rfl, hn, rfl⟩ | ⟨f, q, o, rfl, hn, rfl⟩ | ⟨δ, rfl, rfl⟩
  · rw [hp] at hn hk
    cases hn
    intro hin
    obtain ⟨e, he, hc⟩ := hl.not_covers hk
    rcases hin (s.mem.deadline timed) rfl fun f => by simpa using hquiet f with hnil | ⟨t, ht, hall⟩
    · have hnil' : s.mem.queue = [] := hnil
      simp [hnil'] at he
    · exact hc ⟨t, ht, hall e he⟩
  · cases htid
  · cases htid

/-- The timer thread sleeps in time in every run in which it does not oversleep, and
a step breaks that if and only if it does. -/
theorem in_time (duration : SleepId → Duration) :
    ∀ s, System.ReachVia (fun s a _ => ¬Oversleeps s a) (init duration) s →
      InTime s ∧ ∀ a s', s.step a = some s' → (InTime s' ↔ ¬Oversleeps s a) := by
  intro s h
  have hk : ThreadOk s.mem (thread s) := Reachable.threadOk h.reach
  have hin : InTime s := by
    refine h.invariant (I := InTime) (fun d hd => by cases hd) ?_
    intro s s' a hr hi hs ha
    exact hi.step (Reachable.threadOk hr.reach) ha hs
  refine ⟨hin, fun a s' hs => ⟨fun hin' ha => ?_, fun ha => hin.step hk ha hs⟩⟩
  exact ha.not_inTime hk hs hin'

/-! ## Two runs -/

/-- A wait after a look at a heap that has not changed, at the same instant. -/
def prompt (s : timer.State) (_ : timer.Action) : Bool :=
  match thread s with
  | .wait timed => s.mem.pushed.isEmpty && timed.all fun x => s.mem.clock ≤ x.now
  | _ => true

theorem not_oversleeps_of_prompt (h : prompt s a = true) : ¬Oversleeps s a := by
  rintro ⟨-, -, timed, hp, hl⟩
  simp only [prompt, hp, Bool.and_eq_true, List.isEmpty_iff, Option.all_eq_true,
    decide_eq_true_eq] at h
  rcases hl with ⟨e, he, -⟩ | ⟨x, hx, hlt⟩
  · simp [h.1] at he
  · exact Nat.not_le_of_lt hlt (h.2 x hx)

/-- The schedule of a first poll. -/
def firstPoll (f : SleepId) : List timer.Action := List.replicate 5 (poll f)

/-- The schedule of a thread that waits without a deadline, is notified, and looks
at the heap again. -/
def promptSchedule : List timer.Action :=
  List.replicate 4 (turn .proceed) ++ firstPoll 0 ++ List.replicate 7 (turn .proceed)

/-- The thread sleeps until the entry is due. -/
theorem in_time_promptRun : InTime ((init fun _ => 10).after promptSchedule) :=
  (in_time (fun _ => 10) _
    (.along (f := prompt) .init (fun _ _ _ _ => not_oversleeps_of_prompt) promptSchedule
      (by decide))).1

/-- The schedule of a thread that finds the heap empty, and waits after a future was
polled. -/
def overlookedSchedule : List timer.Action :=
  List.replicate 2 (turn .proceed) ++ firstPoll 0 ++ List.replicate 2 (turn .proceed)

/-- The thread waits without a deadline, with an entry in the heap. -/
theorem not_in_time : ¬∀ s, Reachable (fun _ => 10) s → InTime s := by
  intro h
  have hquiet : Quiet ((init fun _ => 10).after overlookedSchedule) := by
    intro f
    by_cases hf : f = 0
    · subst hf
      decide
    · have hne : ∀ a ∈ overlookedSchedule, a.tid ≠ .sleep f := by
        simp [overlookedSchedule, firstPoll, turn, poll, Ne.symm hf]
      have hpc : sleep ((init fun _ => 10).after overlookedSchedule) f =
          .idle ⟨10, 0, false⟩ none := System.State.after_pc_of_ne _ hne
      rw [hpc]
      rfl
  rcases h _ (.after overlookedSchedule .init) none (by decide) hquiet with hnil | ⟨t, ht, -⟩
  · exact absurd hnil (by decide)
  · cases ht

example : ((init fun _ => 10).after promptSchedule).mem.asleep = some (some 10) := by decide

end MVSync.Timer
