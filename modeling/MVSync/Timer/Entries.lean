import Mathlib.Data.List.Nodup
import MVSync.Timer.Deadline

/-!
# The entries of the heap

The timer thread pops the heap under another acquisition of the lock than the one
under which it looked at it, so the entry that it pops may not be the one that it saw.
Nobody else pops, so the one that it saw is still there, and the first entry is not
later (`TimerPc.Due`).  A `Sleep` pushes one entry, which is for the instant that its
later polls compare the clock with.
-/

namespace MVSync.Timer

open Concurrency

variable {duration : SleepId → Duration} {s s' : timer.State} {a : timer.Action} {m : Shared}
  {e : TimerEntry} {f : SleepId} {l : List Op}

/-- The entry that an operation pushes. -/
def Op.pushes : Op → Option TimerEntry
  | .push e => some e
  | _ => none

/-- The entry that an operation pops. -/
def Op.pops : Op → Option TimerEntry
  | .pop e => some e
  | _ => none

/-- The `Sleep` that a position is about. -/
def SleepPc.future : SleepPc → Sleep
  | .idle x _ | .lock x | .push x | .unlock x | .notifyOne x => x

/-- The first poll has pushed its entry. -/
def SleepPc.hasPushed : SleepPc → Bool
  | .idle x _ => x.started
  | .lock _ | .push _ => false
  | .unlock _ | .notifyOne _ => true

/-- The next step of the poll is its last one, and it returns `r`. -/
def Returns (s : timer.State) (f : SleepId) (r : Poll) : Prop :=
  ∃ x o, sleepNext f (sleep s f) s.mem = some (.idle x (some r), o)

/-- When the first poll of a `Sleep` read the clock. -/
def firstPollAt (s : timer.State) (f : SleepId) : List timer.Action → Option Instant
  | [] => none
  | a :: as =>
      if a.tid = .sleep f then some s.mem.clock else firstPollAt ((s.step a).getD s) f as

/-! ## The timer thread -/

/-- What the timer thread is about to pop, or has popped, is due. -/
def TimerPc.Due (m : Shared) : TimerPc → Prop
  | .pop => ∃ e ∈ m.queue, e.when ≤ m.clock
  | .wake e => e.when ≤ m.clock
  | .panicked => False
  | _ => True

/-- The first entry is not later than any other one. -/
theorem Shared.First.due (h : m.First e) (hd : TimerPc.Due m .pop) : e.when ≤ m.clock := by
  obtain ⟨e', he', hle⟩ := hd
  exact Nat.le_trans (h.2 e' he') hle

theorem TimerPc.Due.mono {m' : Shared} {p : TimerPc} (h : p.Due m)
    (hq : ∀ e ∈ m.queue, e ∈ m'.queue) (hc : m.clock ≤ m'.clock) : p.Due m' := by
  cases p with
  | pop =>
      obtain ⟨e, he, hle⟩ := h
      exact ⟨e, hq e he, Nat.le_trans hle hc⟩
  | wake e => exact Nat.le_trans (m := m.clock) h hc
  | panicked => exact h
  | _ => trivial

/-- What a step of the timer thread does to the entries. -/
inductive Turned (m : Shared) : TimerPc → TimerPc → Op → Prop where
  /-- It pops the first entry. -/
  | pop {e : TimerEntry} (h : m.First e) : Turned m .pop (.wake e) (.pop e)
  /-- It calls the waker of the entry. -/
  | wake {e : TimerEntry} : Turned m (.wake e) .peek (.wake e.waker)
  /-- It neither pops nor calls a waker. -/
  | other {p p' : TimerPc} {o : Op} (hq : (o.exec m).queue = m.queue)
      (hc : (o.exec m).clock = m.clock) (hw : (o.exec m).woken = m.woken)
      (hpush : o.pushes = none) (hpop : o.pops = none) (hwake : ∀ e, p' ≠ .wake e) :
      Turned m p p' o

theorem TimerStep.turned {p p' : TimerPc} {o : Op} (h : TimerStep m p p' o) :
    Turned m p p' o := by
  cases h with
  | pop _ hfirst => exact .pop hfirst
  | wake => exact .wake
  | _ => exact .other rfl rfl rfl rfl rfl (by simp)

theorem TimerStep.due {p p' : TimerPc} {o : Op} (hn : TimerStep m p p' o) (h : p.Due m)
    (hk : p.Knows m) : p'.Due (o.exec m) := by
  cases hn with
  | @isDue t hle =>
      have hlook : Looked m (some t) := hk
      obtain ⟨e, he, rfl⟩ := hlook.first t rfl
      exact ⟨e, he, hle⟩
  | pop _ hfirst => exact hfirst.due h
  | unwrap _ hq =>
      -- the entry that was seen is still in the heap
      obtain ⟨e, he, -⟩ := h
      simp [hq] at he
  | _ => trivial

/-! ## The polls -/

/-- What a step of a poll does. -/
inductive Polled (f : SleepId) (m : Shared) : SleepPc → SleepPc → Op → Prop where
  /-- The first poll reads the clock. -/
  | first {x : Sleep} {last : Option Poll} (hs : x.started = false) :
      Polled f m (.idle x last) (.lock { x with when := m.clock + x.duration, started := true })
        .tau
  | push {x : Sleep} : Polled f m (.push x) (.unlock x) (.push ⟨x.when, f⟩)
  /-- Nothing is pushed. -/
  | other {p p' : SleepPc} {o : Op} (hs : p.future.started = true) (hx : p'.future = p.future)
      (hp : p'.hasPushed = p.hasPushed) (hq : (o.exec m).queue = m.queue)
      (hw : (o.exec m).woken = m.woken) (hpush : o.pushes = none) (hpop : o.pops = none) :
      Polled f m p p' o

/-- A `Sleep` keeps its duration, and only before its first poll it is not started. -/
structure SleepPc.Ok (d : Duration) (p : SleepPc) : Prop where
  duration : p.future.duration = d
  started : p.future.started = false → ∃ last, p = .idle p.future last

theorem SleepPc.Ok.of_busy {d : Duration} {p : SleepPc} (h : p.Ok d)
    (hp : ∀ last, p ≠ .idle p.future last) : p.future.started = true := by
  by_contra hs
  obtain ⟨last, he⟩ := h.started (Bool.eq_false_iff.mpr hs)
  exact hp last he

theorem SleepStep.polled {d : Duration} {p p' : SleepPc} {o : Op} (hn : SleepStep f m p p' o)
    (h : p.Ok d) : Polled f m p p' o := by
  cases hn with
  | first hs => exact .first hs
  | ready hs _ => exact .other hs rfl rfl rfl rfl rfl rfl
  | pending hs _ => exact .other hs rfl rfl rfl rfl rfl rfl
  | lock _ => exact .other (h.of_busy (by simp)) rfl rfl rfl rfl rfl rfl
  | push => exact .push
  | unlock => exact .other (h.of_busy (by simp)) rfl rfl rfl rfl rfl rfl
  | @notifyOne x =>
      have hs : x.started = true := h.of_busy (by simp)
      exact .other hs rfl hs rfl rfl rfl rfl

theorem Polled.ok {d : Duration} {p p' : SleepPc} {o : Op} (hp : Polled f m p p' o)
    (h : p.Ok d) : p'.Ok d := by
  cases hp with
  | first hs => exact ⟨h.duration, nofun⟩
  | push =>
      have hs : (SleepPc.unlock _).future.started = true := h.of_busy nofun
      exact ⟨h.duration, by simp [hs]⟩
  | other hs hx _ _ _ _ _ => exact ⟨hx ▸ h.duration, by simp [hx, hs]⟩

/-- After its first poll a `Sleep` does not change. -/
theorem Polled.future_eq {p p' : SleepPc} {o : Op} (hp : Polled f m p p' o)
    (hs : p.future.started = true) : p'.future = p.future := by
  cases hp with
  | first hs' => cases hs.symm.trans hs'
  | push => rfl
  | other _ hx _ _ _ _ _ => exact hx

theorem Reachable.sleepOk (h : Reachable duration s) (f : SleepId) :
    (sleep s f).Ok (duration f) :=
  h.pc_invariant (i := .sleep f) (I := fun p : SleepPc => p.Ok (duration f))
    ⟨rfl, fun _ => ⟨none, rfl⟩⟩ fun hn hi => ((sleepNext_step hn).polled hi).ok hi

/-! ## Every entry once -/

/-- The entries that were pushed are those that were popped and those in the heap.
Every `Sleep` has pushed one at most, which is for the instant that its polls wait for,
and a waker that was called is that of an entry that is due. -/
structure Accounted (l : List Op) (s : timer.State) : Prop where
  perm : (l.filterMap Op.pops ++ s.mem.queue).Perm (l.filterMap Op.pushes)
  nodup : ((l.filterMap Op.pushes).map TimerEntry.waker).Nodup
  entry : ∀ e ∈ l.filterMap Op.pushes,
    (sleep s e.waker).hasPushed = true ∧ (sleep s e.waker).future.when = e.when
  hand : ∀ e, thread s = .wake e → e ∈ l.filterMap Op.pushes
  woken : ∀ g ∈ s.mem.woken, ∃ e ∈ l.filterMap Op.pushes, e.waker = g ∧ e.when ≤ s.mem.clock

namespace Accounted

theorem init : Accounted [] (init duration) where
  perm := .nil
  nodup := List.nodup_nil
  entry := nofun
  hand := nofun
  woken := nofun

/-- A step that neither pushes nor pops. -/
theorem other (h : Accounted l s) {o : Op} (hpush : o.pushes = none) (hpop : o.pops = none)
    (hq : s'.mem.queue = s.mem.queue) (hc : s.mem.clock ≤ s'.mem.clock)
    (hw : ∀ g ∈ s'.mem.woken, g ∈ s.mem.woken ∨
      ∃ e ∈ l.filterMap Op.pushes, e.waker = g ∧ e.when ≤ s'.mem.clock)
    (hsleep : ∀ e ∈ l.filterMap Op.pushes,
      (sleep s' e.waker).hasPushed = (sleep s e.waker).hasPushed ∧
        (sleep s' e.waker).future = (sleep s e.waker).future)
    (hhand : ∀ e, thread s' = .wake e → thread s = .wake e) : Accounted (l ++ [o]) s' := by
  have hpushes : (l ++ [o]).filterMap Op.pushes = l.filterMap Op.pushes := by
    rw [System.filterMap_snoc, hpush, Option.toList_none, List.append_nil]
  have hpops : (l ++ [o]).filterMap Op.pops = l.filterMap Op.pops := by
    rw [System.filterMap_snoc, hpop, Option.toList_none, List.append_nil]
  constructor
  · rw [hpushes, hpops, hq]
    exact h.perm
  · rw [hpushes]
    exact h.nodup
  · intro e he
    rw [hpushes] at he
    rw [(hsleep e he).1, (hsleep e he).2]
    exact h.entry e he
  · intro e he
    rw [hpushes]
    exact h.hand e (hhand e he)
  · intro g hg
    rw [hpushes]
    rcases hw g hg with hg | hnew
    · obtain ⟨e, he, hwaker, hle⟩ := h.woken g hg
      exact ⟨e, he, hwaker, Nat.le_trans hle hc⟩
    · exact hnew

theorem push (h : Accounted l s) {x : Sleep} (hp : sleep s f = .push x) :
    Accounted (l ++ [.push ⟨x.when, f⟩])
      (s.move (.sleep f) (.unlock x) (.push ⟨x.when, f⟩)) := by
  -- the `Sleep` has no entry yet
  have hfresh : ∀ e ∈ l.filterMap Op.pushes, e.waker ≠ f := by
    rintro e he rfl
    have hpushed := (h.entry e he).1
    rw [hp] at hpushed
    cases hpushed
  have hpushes : (l ++ [Op.push ⟨x.when, f⟩]).filterMap Op.pushes =
      l.filterMap Op.pushes ++ [⟨x.when, f⟩] := System.filterMap_snoc _ _ _
  have hpops : (l ++ [Op.push ⟨x.when, f⟩]).filterMap Op.pops = l.filterMap Op.pops := by
    rw [System.filterMap_snoc]
    exact List.append_nil _
  constructor
  · rw [hpushes, hpops]
    exact List.perm_middle.trans ((h.perm.cons _).trans (List.perm_append_singleton _ _).symm)
  · rw [hpushes, List.map_append, List.nodup_append]
    refine ⟨h.nodup, by simp, fun g hg g' hg' => ?_⟩
    obtain ⟨e, he, rfl⟩ := List.mem_map.mp hg
    rw [List.mem_singleton.mp hg']
    exact hfresh e he
  · intro e he
    rw [hpushes, List.mem_append, List.mem_singleton] at he
    rcases he with he | rfl
    · rw [sleep_move_of_ne s _ (hfresh e he)]
      exact h.entry e he
    · rw [sleep_move]
      exact ⟨rfl, rfl⟩
  · intro e he
    rw [thread_move_sleep] at he
    rw [hpushes]
    exact List.mem_append_left _ (h.hand e he)
  · intro g hg
    obtain ⟨e, he, hwaker, hle⟩ := h.woken g hg
    rw [hpushes]
    exact ⟨e, List.mem_append_left _ he, hwaker, hle⟩

theorem pop (h : Accounted l s) (he : e ∈ s.mem.queue) :
    Accounted (l ++ [.pop e]) (s.move .timer (.wake e) (.pop e)) := by
  have hpushes : (l ++ [Op.pop e]).filterMap Op.pushes = l.filterMap Op.pushes := by
    rw [System.filterMap_snoc]
    exact List.append_nil _
  have hpops : (l ++ [Op.pop e]).filterMap Op.pops = l.filterMap Op.pops ++ [e] :=
    System.filterMap_snoc _ _ _
  constructor
  · rw [hpushes, hpops, List.append_assoc]
    refine .trans (.append_left _ ?_) h.perm
    exact (List.perm_cons_erase he).symm
  · rw [hpushes]
    exact h.nodup
  · intro e' he'
    rw [hpushes] at he'
    rw [sleep_move_timer]
    exact h.entry e' he'
  · intro e' he'
    rw [thread_move] at he'
    cases he'
    rw [hpushes]
    exact h.perm.mem_iff.mp (List.mem_append_right _ he)
  · rw [hpushes]
    exact h.woken

theorem wake (h : Accounted l s) (hp : thread s = .wake e) (hle : e.when ≤ s.mem.clock) :
    Accounted (l ++ [.wake e.waker]) (s.move .timer .peek (.wake e.waker)) := by
  refine h.other rfl rfl rfl (Nat.le_refl _) (fun g hg => ?_) (fun e' _ => ?_) fun e' he' => ?_
  · rcases List.mem_cons.mp hg with rfl | hg
    · exact .inr ⟨e, h.hand e hp, rfl, hle⟩
    · exact .inl hg
  · rw [sleep_move_timer]
    exact ⟨rfl, rfl⟩
  · rw [thread_move] at he'
    cases he'

end Accounted

/-! ## Every state -/

theorem Due.step (hk : ThreadOk s.mem (thread s)) (h : (thread s).Due s.mem)
    (hs : s.step a = some s') : (thread s').Due s'.mem := by
  rcases step_cases hs with ⟨c, q, o, rfl, hn, rfl⟩ | ⟨f, q, o, rfl, hn, rfl⟩ | ⟨d, rfl, rfl⟩
  · rw [thread_move]
    exact hn.due h hk.knows
  · rw [thread_move_sleep]
    show (thread s).Due (o.exec s.mem)
    obtain ⟨hclock, ⟨e, -, hq, -⟩ | ⟨hq, -⟩⟩ := hn.effect
    · refine h.mono (fun e' he' => ?_) (Nat.le_of_eq hclock.symm)
      exact hq ▸ List.mem_cons_of_mem e he'
    · exact h.mono (fun e' he' => hq ▸ he') (Nat.le_of_eq hclock.symm)
  · rw [thread_move_clock]
    exact h.mono (fun _ he => he) (Nat.le_add_right _ _)

theorem Reachable.due (h : Reachable duration s) : (thread s).Due s.mem :=
  h.invariant (I := fun s => (thread s).Due s.mem) (show TimerPc.Due _ .peek from trivial)
    fun _ hr hi hs _ => Due.step (Reachable.threadOk hr) hi hs

namespace Accounted

theorem turn (h : Accounted l s) (hr : Reachable duration s) {p : TimerPc} {o : Op}
    (hn : TimerStep s.mem (thread s) p o) : Accounted (l ++ [o]) (s.move .timer p o) := by
  have hturn := hn.turned
  have hdue := hr.due
  generalize hp : thread s = q at hturn hdue
  cases hturn with
  | pop hfirst => exact h.pop hfirst.1
  | wake => exact h.wake hp hdue
  | other hq hc hw hpush hpop hwake =>
      refine h.other hpush hpop hq (Nat.le_of_eq hc.symm) (fun g hg => .inl (hw ▸ hg))
        (fun e _ => ?_) fun e he => ?_
      · rw [sleep_move_timer]
        exact ⟨rfl, rfl⟩
      · rw [thread_move] at he
        exact absurd he (hwake e)

theorem poll (h : Accounted l s) (hr : Reachable duration s) {p : SleepPc} {o : Op}
    (hn : SleepStep f s.mem (sleep s f) p o) :
    Accounted (l ++ [o]) (s.move (.sleep f) p o) := by
  have hpoll := hn.polled (hr.sleepOk f)
  generalize hp : sleep s f = q at hpoll
  cases hpoll with
  | first hs =>
      refine h.other rfl rfl rfl (Nat.le_refl _) (fun g => .inl) (fun e he => ?_) fun e he => ?_
      · have hne : e.waker ≠ f := by
          rintro rfl
          have hpushed := (h.entry e he).1
          rw [hp, SleepPc.hasPushed, hs] at hpushed
          cases hpushed
        rw [sleep_move_of_ne s _ hne]
        exact ⟨rfl, rfl⟩
      · rwa [thread_move_sleep] at he
  | push => exact h.push hp
  | other hs hx hpushed hq hw hpush hpop =>
      refine h.other hpush hpop hq (Nat.le_of_eq hn.effect.1.symm) (fun g hg => .inl (hw ▸ hg))
        (fun e _ => ?_) fun e he => ?_
      · by_cases hg : e.waker = f
        · rw [hg, sleep_move, hp]
          exact ⟨hpushed, hx⟩
        · rw [sleep_move_of_ne s _ hg]
          exact ⟨rfl, rfl⟩
      · rwa [thread_move_sleep] at he

theorem pass (h : Accounted l s) (d : Nat) :
    Accounted (l ++ [.tick d]) (s.move .clock () (.tick d)) := by
  refine h.other rfl rfl rfl (Nat.le_add_right _ _) (fun g => .inl) (fun e _ => ?_) fun e he => ?_
  · rw [sleep_move_clock]
    exact ⟨rfl, rfl⟩
  · rwa [thread_move_clock] at he

end Accounted

theorem accounted (duration : SleepId → Duration) (as : List timer.Action) :
    Accounted ((init duration).log as) ((init duration).after as) := by
  refine System.State.log_invariant .init (fun a p o hr h hn => ?_) as
  have hr : Reachable duration _ := hr
  obtain ⟨i, c⟩ := a
  cases i with
  | timer => exact h.turn hr (timerNext_step hn)
  | sleep f => exact h.poll hr (sleepNext_step hn)
  | clock =>
      obtain ⟨rfl, rfl⟩ := Prod.mk.inj (Option.some.inj hn)
      exact h.pass c

/-! ## When a poll returns -/

/-- A poll returns `Ready` if it is not the first one and the time has come. -/
theorem returns_ready_iff : Returns s f .ready ↔
    ∃ x last, sleep s f = .idle x last ∧ x.started = true ∧ x.when ≤ s.mem.clock := by
  constructor
  · rintro ⟨x, o, hn⟩
    have hstep := sleepNext_step hn
    generalize sleep s f = q at hstep
    cases hstep with
    | ready hs hle => exact ⟨x, _, rfl, hs, hle⟩
  · rintro ⟨x, last, hp, hs, hle⟩
    refine ⟨x, .tau, ?_⟩
    simp [hp, sleepNext, hs, hle]

/-- A `Sleep` that was polled does not change any more. -/
theorem future_after (h : Reachable duration s) (hs : (sleep s f).future.started = true)
    (as : List timer.Action) : (sleep (s.after as) f).future = (sleep s f).future := by
  have hr : System.Reach s (s.after as) := .after as .init
  have hkept : (sleep (s.after as) f).Ok (duration f) ∧
      (sleep (s.after as) f).future = (sleep s f).future := by
    refine hr.pc_invariant (i := Tid.sleep f)
      (I := fun p : SleepPc => p.Ok (duration f) ∧ p.future = (sleep s f).future)
      ⟨h.sleepOk f, rfl⟩ fun hn hi => ?_
    have hpoll := (sleepNext_step hn).polled hi.1
    exact ⟨hpoll.ok hi.1, (hpoll.future_eq (hi.2 ▸ hs)).trans hi.2⟩
  exact hkept.2

/-- The duration of a `Sleep` begins with its first poll. -/
theorem firstPollAt_spec (f : SleepId) (as : List timer.Action) :
    ∀ {s : timer.State}, Reachable duration s → (sleep s f).future.started = false →
      (sleep (s.after as) f).future.started = true →
        ∃ t, firstPollAt s f as = some t ∧
          (sleep (s.after as) f).future.when = t + duration f := by
  induction as with
  | nil =>
      intro s _ hs hs'
      cases hs.symm.trans hs'
  | cons a as ih =>
      intro s h hs hs'
      by_cases ha : a.tid = .sleep f
      · obtain ⟨i, c⟩ := a
        obtain rfl : i = .sleep f := ha
        have hok := h.sleepOk f
        obtain ⟨x, last, hp⟩ : ∃ x last, sleep s f = .idle x last := ⟨_, hok.started hs⟩
        rw [hp] at hok hs
        have hnext : sleepNext f (sleep s f) s.mem =
            some (.lock { x with when := s.mem.clock + x.duration, started := true }, .tau) := by
          have hs : x.started = false := hs
          simp [hp, sleepNext, hs]
        have hstep := System.State.step_of_next (S := timer) (a := ⟨.sleep f, c⟩) hnext
        refine ⟨s.mem.clock, by simp [firstPollAt], ?_⟩
        rw [System.State.after_cons, hstep, Option.getD_some,
          future_after (.step _ h hstep trivial) (by rw [sleep_move]; rfl), sleep_move]
        exact congrArg (s.mem.clock + ·) hok.duration
      · have hsame : sleep (s.after [a]) f = sleep s f :=
          System.State.after_pc_of_ne [a] (by simpa using ha)
        obtain ⟨t, ht, hw⟩ := ih (s := s.after [a]) (.after [a] h) (hsame ▸ hs) hs'
        exact ⟨t, by rwa [firstPollAt, if_neg ha], hw⟩

/-- What can be said of the timer after a schedule. -/
structure Punctual (duration : SleepId → Duration) (as : List timer.Action) (s : timer.State) :
    Prop where
  /-- `pop().unwrap()` never meets an empty heap. -/
  alive : thread s ≠ .panicked ∧ (thread s = .pop → s.mem.queue ≠ [])
  /-- An entry that is popped is due. -/
  due : ∀ a p e, s.next a = some (p, .pop e) → e.when ≤ s.mem.clock
  /-- Every entry is pushed once, and in the heap until it is popped. -/
  once : (((init duration).log as).filterMap Op.pushes).Nodup ∧
    (((init duration).log as).filterMap Op.pops ++ s.mem.queue).Perm
      (((init duration).log as).filterMap Op.pushes)
  /-- A poll that returns `Ready` comes the duration after the first poll, or later. -/
  ready : ∀ f, Returns s f .ready →
    ∃ t, firstPollAt (init duration) f as = some t ∧ t + duration f ≤ s.mem.clock
  /-- A poll that begins after the timer thread called the waker returns `Ready`. -/
  woken : ∀ f x last, f ∈ s.mem.woken → sleep s f = .idle x last → Returns s f .ready

theorem popped_due (h : Reachable duration s) {p : timer.Pc a.tid}
    (hn : s.next a = some (p, .pop e)) : e.when ≤ s.mem.clock := by
  obtain ⟨i, c⟩ := a
  cases i with
  | timer =>
      have hdue := h.due
      have hstep : TimerStep s.mem (thread s) p (.pop e) := timerNext_step hn
      generalize thread s = q at hstep hdue
      cases hstep with
      | pop _ hfirst => exact hfirst.due hdue
  | sleep f =>
      have hstep : SleepStep f s.mem (sleep s f) p (.pop e) := sleepNext_step hn
      generalize sleep s f = q at hstep
      cases hstep
  | clock => cases hn

/-- Timers never fire early, never lose an entry and never crash the timer thread. -/
theorem punctual (duration : SleepId → Duration) (as : List timer.Action) :
    Punctual duration as ((init duration).after as) := by
  have h : Reachable duration ((init duration).after as) := .after as .init
  have hacc := accounted duration as
  have hdue := h.due
  constructor
  · refine ⟨fun hp => ?_, fun hp => ?_⟩
    · rwa [hp] at hdue
    · rw [hp] at hdue
      obtain ⟨e, he, -⟩ := hdue
      exact List.ne_nil_of_mem he
  · exact fun a p e hn => popped_due h hn
  · exact ⟨List.Nodup.of_map _ hacc.nodup, hacc.perm⟩
  · intro f hf
    obtain ⟨x, last, hp, hs, hle⟩ := returns_ready_iff.mp hf
    obtain ⟨t, ht, hw⟩ := firstPollAt_spec f as .init rfl (by rw [hp]; exact hs)
    rw [hp] at hw
    exact ⟨t, ht, hw ▸ hle⟩
  · intro f x last hf hp
    obtain ⟨e, he, rfl, hle⟩ := hacc.woken f hf
    obtain ⟨hpushed, hwhen⟩ := hacc.entry e he
    rw [hp] at hpushed hwhen
    exact returns_ready_iff.mpr ⟨x, last, hp, hpushed, hwhen ▸ hle⟩

/-- The schedule of a thread that sleeps until the entry is due, pops it, and calls its
waker. -/
def firedSchedule : List timer.Action :=
  promptSchedule ++ [pass 10, turn .timeout] ++ List.replicate 4 (turn .proceed) ++
    [turn (.entry ⟨10, 0⟩), turn .proceed]

example : ((init fun _ => 10).after firedSchedule).mem.woken = [0] := by decide

end MVSync.Timer
