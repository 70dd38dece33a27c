import MVSync.Pool.Turn

/-!
# Pools without threads

With `thread_count = 0` the callers run their tasks themselves.  Nothing is ever
sent, the dispatcher and the workers own no task, and no task ever becomes
`Panicked`: only a worker catches the panic of a body (`Pool.Threadless`).

A task can be lost in two ways.  `run` drops a task that it cannot run, and a
panic that unwinds takes along the task it comes from and every task of the same
call (`Pool.abandoned_cases`).  A task that is lost stays so
(`Pool.Abandoned.step`): nobody settles it, and a wait on it never returns.
-/

namespace MVSync

open Concurrency Pool

variable {V P : Type} {cfg : Specs} {prog : Program V P} {m : Shared V P} {i : Tid} {t : TaskId}
  {x : Task} {op : Op V P} {e : CallerId} {c : CallerInput}

/-! ## Where a caller is -/

/-- The poll has not read a panic. -/
def PollPc.Calm : PollPc V P → Prop
  | .replace _ st _ => ∀ q, st ≠ .panicked q
  | _ => True

/-- The positions of a caller when the pool has no threads.  The counter of
`run_all` starts at `0` in every pass, and never gets further. -/
def CallerPc.Inline : CallerPc V P → Prop
  | .sending _ _ | .getPanic _ _ => False
  | .replace _ st _ _ p => (∀ q, st ≠ .panicked q) ∧ p.count = 0
  | .poll _ pc p => pc.Calm ∧ p.count = 0
  | p => ∀ q, p.pass = some q → q.count = 0

/-- No task is `Panicked`. -/
def Shared.Calm (m : Shared V P) : Prop := ∀ t q, (m.cell t).state ≠ .panicked q

theorem Shared.Calm.predState (h : m.Calm) (x : Task) (q : Payload P) :
    m.predState x ≠ .panicked q := by
  unfold Shared.predState
  split
  · simp
  · exact h _ q

theorem Shared.Calm.isPanicked (h : m.Calm) (x : Task) : m.isPanicked x = false := by
  refine Bool.eq_false_iff.mpr fun hp => ?_
  obtain ⟨p, q, -, hq⟩ := Shared.isPanicked_iff.mp hp
  exact h p q hq

/-- A poll that reads no panic stays calm. -/
theorem pollNext_calm (hm : m.Calm) {pends : Bool} {p : PollPc V P} {r : PollResult V P}
    (h : pollNext prog x pends p m = some (r, op)) : ∀ p', r = .more p' → p'.Calm := by
  rintro p' rfl
  cases pollNext_step h with
  | @predPanicked p _ _ hs =>
      obtain ⟨-, q, hs⟩ := TaskState.take_eq_panicked.mp hs
      exact absurd hs (hm p q)
  | predCancelled => exact nofun
  | _ => trivial

/-- The panic of a poll is the panic of its future. -/
theorem pollNext_err {pends : Bool} {p : PollPc V P} {q : Payload P}
    (h : pollNext prog x pends p m = some (.err q, op)) : ∃ t, op = .futurePanics t := by
  cases pollNext_step h with
  | takePending | takeNone | panic => exact ⟨_, rfl⟩

/-- Without threads, a caller only has inline positions. -/
theorem callerNext_inline (hc : cfg.threadCount = 0) (hm : m.Calm) {p p' : CallerPc V P}
    (hp : p.Inline) (h : callerNext cfg prog e c p m = some (p', op)) : p'.Inline := by
  cases callerNext_step h with
  | inline | again =>
      rintro q ⟨⟩
      rfl
  | submit _ _ hn => exact absurd hc hn
  | send | failSubmit | getPanic | panic => exact hp.elim
  | @wake _ k | @polled _ k => cases k <;> exact nofun
  | next | notPanicked | selfNotCancelled | predNotCancelled | signalled | pass
  | unsignalledKept | unsignalledDropped | predPendingKept | predPendingDropped =>
      have hcount := hp _ rfl
      rintro q ⟨⟩
      exact hcount
  | @isPanicked x _ hx => simp [hm.isPanicked x] at hx
  | predCancelled | selfCancelled => exact ⟨nofun, hp _ rfl⟩
  | newSignal | unblock => exact ⟨trivial, hp _ rfl⟩
  | more hpoll => exact ⟨pollNext_calm hm hpoll _ rfl, hp.2⟩
  | replace | pending | ready =>
      have hcount := hp.2
      rintro q ⟨⟩
      exact hcount
  | settle =>
      have hcount := hp _ rfl
      rintro q ⟨⟩
      exact hcount
  | settled =>
      rintro q ⟨⟩
      rfl
  | _ => exact nofun

/-- A caller unwinds from a wait, from a `get_panic` that does not read
`Panicked`, or from the body that it runs. -/
theorem callerNext_unwinds {p : CallerPc V P} {q : Payload P}
    (h : callerNext cfg prog e c p m = some (.unwind q, op)) :
    p.tasks = some [] ∧ op = .tau ∨ (∃ x q', p = .getPanic x q') ∨ ∃ t, op = .futurePanics t := by
  generalize hp' : CallerPc.unwind q = p' at h
  cases callerNext_step h with
  | unbound | takePending | takeNone => exact .inl ⟨rfl, rfl⟩
  | panic => exact .inr (.inl ⟨_, _, rfl⟩)
  | err hpoll => exact .inr (.inr (pollNext_err hpoll))
  | @wake _ k | @polled _ k => cases k <;> cases hp'
  | _ => cases hp'

/-! ## What a pool without threads keeps -/

namespace Pool

variable {s s' : (pool cfg prog).State} {a : (pool cfg prog).Action}

/-- The invariant of a pool without threads. -/
structure Threadless (s : (pool cfg prog).State) : Prop where
  dispatcher : dispatcher s = .top [] ∨ dispatcher s = .exited
  channel : s.mem.channel = []
  caller : ∀ e, (caller s e).Inline
  calm : s.mem.Calm
  /-- Every task is with the user or a caller, or gone. -/
  owner : ∀ t, (s.mem.cell t).owner = .user ∨ (s.mem.cell t).owner = .gone ∨
    ∃ e, (s.mem.cell t).owner = .thread (.caller e)

theorem Threadless.init : Threadless (poolInit cfg prog) where
  dispatcher := .inl rfl
  channel := rfl
  caller _ q hq := by cases hq
  calm t q := by simp [poolInit, Shared.init, Cell.init]
  owner _ := .inl rfl

/-- Without threads, nothing is sent. -/
theorem Threadless.not_send (hi : Threadless s) (h : Reachable s) {y : Task} :
    ¬Performs s a (.send y) := by
  rintro ⟨q, hn⟩
  obtain ⟨e, he⟩ := (h.pre hn).1
  obtain ⟨i, c⟩ := a
  subst he
  rcases callerNext_sends hn with ⟨sent, z, xs, hp, -⟩ | ⟨hne, -⟩
  · have hin := hi.caller e
    rw [show Pool.caller s e = _ from hp] at hin
    exact hin
  · exact hne y rfl

/-- The thread that has a task is a caller. -/
theorem Threadless.tid_eq (hi : Threadless s) {i : Tid} {t : TaskId} {st : Stage V P}
    (ha : s.mem.At i t st) : ∃ e, i = .caller e := by
  rcases hi.owner t with ho | ho | ⟨e, ho⟩
  · simp [ha.1] at ho
  · simp [ha.1] at ho
  · exact ⟨e, by simpa [ha.1] using ho⟩

/-- Without threads, no task becomes `Panicked`. -/
theorem Threadless.calm_step (hi : Threadless s) (h : Reachable s) (hs : s.step a = some s') :
    s'.mem.Calm := by
  intro t q hq
  obtain ⟨o, ho, hmem⟩ := mem_of_step hs
  rw [hmem] at hq
  have hw := (Op.state_cases o s.mem t).resolve_left fun he => hi.calm t q (he.symm.trans hq)
  rw [hq] at hw
  have hpre := h.performs ho
  cases o <;> simp only [Op.writes, reduceCtorEq, Option.ite_none_right_eq_some] at hw
  all_goals obtain ⟨rfl, he⟩ := hw
  case writeReady => cases he
  case cancel => cases he
  case replacePanicked u q' w =>
    obtain ⟨e, he'⟩ := hi.tid_eq hpre.2
    simp [hpre.1] at he'
  case replace u st f =>
    obtain rfl := Option.some.inj he
    have hcaller : ∃ e, a.tid = .caller e := by
      rcases hpre.1 with ha | ⟨r, ha⟩
      · exact hi.tid_eq ha
      · exact hi.tid_eq ha
    obtain ⟨e, he'⟩ := hcaller
    obtain ⟨q', hn⟩ := ho
    obtain ⟨i, c⟩ := a
    subst he'
    have hin := hi.caller e
    rcases callerNext_replaces hn with ⟨x, site, p, hp, -, -⟩ | ⟨x, r, p, hp, -⟩
    · rw [show Pool.caller s e = _ from hp] at hin
      exact hin.1 q rfl
    · rw [show Pool.caller s e = _ from hp] at hin
      exact hin.1 q rfl

theorem Threadless.step (hc : cfg.threadCount = 0) (hi : Threadless s) (h : Reachable s)
    (hs : s.step a = some s') : Threadless s' := by
  obtain ⟨o, ho, hmem⟩ := mem_of_step hs
  have hpre := h.performs ho
  have hchannel : s'.mem.channel = [] := by
    refine List.eq_nil_iff_forall_not_mem.mpr fun y hy => ?_
    rw [hmem] at hy
    rcases Op.mem_channel hy with hy | rfl
    · simp [hi.channel] at hy
    · exact hi.not_send h ho
  have howner : ∀ t, (s'.mem.cell t).owner = .user ∨ (s'.mem.cell t).owner = .gone ∨
      ∃ e, (s'.mem.cell t).owner = .thread (.caller e) := by
    intro t
    have hold := hi.owner t
    rw [hmem]
    rcases Op.owner_cases hpre h.inv.places t with he | hcarry
    · rwa [he]
    · generalize (s.mem.cell t).owner = o₁ at hold hcarry
      generalize ((o.exec s.mem).cell t).owner = o₂ at hcarry
      cases hcarry with
      | recv => simp at hold
      | sendWorker w x hx => simp at hold
      | recvWorker w => simp at hold
      | beginSubmit e ts ht => exact .inr (.inr ⟨e, rfl⟩)
      | beginRun e ts ht => exact .inr (.inr ⟨e, rfl⟩)
      | send e x hx => exact absurd ho (hi.not_send h)
      | _ => exact .inr (.inl rfl)
  have hcalm := hi.calm_step h hs
  rcases step_cases hs with ⟨q, o, rfl, hn, rfl⟩ | ⟨w, pends, q, o, rfl, -, rfl⟩ |
    ⟨e, c, q, o, rfl, hn, rfl⟩
  · refine ⟨?_, hchannel, fun e => ?_, hcalm, howner⟩
    · rw [dispatcher_move]
      rcases hi.dispatcher with hd | hd
      · simp only [hd, dispatcherNext, hi.channel] at hn
        split at hn
        all_goals cases hn
        exact .inr rfl
      · rw [hd] at hn
        cases hn
    · simpa using hi.caller e
  · exact ⟨by simpa using hi.dispatcher, hchannel, fun e => by simpa using hi.caller e, hcalm,
      howner⟩
  · refine ⟨by simpa using hi.dispatcher, hchannel, fun e' => ?_, hcalm, howner⟩
    by_cases he : e' = e
    · subst he
      rw [caller_move]
      exact callerNext_inline hc hi.calm (hi.caller e') hn
    · rw [caller_move_of_ne s o he]
      exact hi.caller e'

theorem Reachable.threadless (hc : cfg.threadCount = 0) (h : Reachable s) : Threadless s :=
  h.invariant (I := Threadless) .init fun _ hr hi hs _ => hi.step hc hr hs

/-! ## Tasks that are lost -/

/-- The panic that a caller unwinds takes the task along. -/
def Unwinds (s : (pool cfg prog).State) (t : TaskId) : Prop :=
  ∃ e q, (s.mem.cell t).owner = .thread (.caller e) ∧ caller s e = .unwind q

/-- The task is dropped, or a panic is about to drop it, and its completion
signal was not woken. -/
def Abandoned (s : (pool cfg prog).State) (t : TaskId) : Prop :=
  (s.mem.cell t).wakes = [] ∧ ((s.mem.cell t).owner = .gone ∨ Unwinds s t)

/-- Nobody takes an abandoned task up again. -/
theorem Abandoned.step (hi : Abandoned s t) (h : Reachable s) (hs : s.step a = some s') :
    Abandoned s' t := by
  obtain ⟨hw, hgone⟩ := hi
  obtain ⟨o, ho, hmem⟩ := mem_of_step hs
  have hpre := h.performs ho
  have hwakes : (s'.mem.cell t).wakes = [] := by
    rw [hmem]
    refine ((Op.cellStep o s.mem t).wakes.resolve_right ?_).trans hw
    rintro ⟨site, rfl⟩
    have ha := hpre.1
    rcases hgone with hg | ⟨e, q, he, hq⟩
    · simp [ha.1] at hg
    · have hns := (h.caller e).unwind q hq t he
      simp [ha.2, Stage.settling] at hns
  refine ⟨hwakes, ?_⟩
  have howner := Op.owner_cases hpre h.inv.places t
  rw [← hmem] at howner
  rcases hgone with hg | ⟨e, q, he, hq⟩
  · refine .inl (howner.elim (fun hs => hs.trans hg) fun hcarry => ?_)
    rw [hg] at hcarry
    cases hcarry
  · by_cases hi : a.tid = .caller e
    · -- the caller drops its tasks
      obtain ⟨i, c⟩ := a
      obtain rfl : i = .caller e := hi
      obtain ⟨q', hn⟩ := ho
      have hn' : callerNext cfg prog e c (caller s e) s.mem = some (q', o) := hn
      rw [hq] at hn'
      cases hn'
      exact .inl (by simp [hmem, Op.exec, Shared.drop, he])
    · have hpc : caller s' e = caller s e := by
        obtain ⟨q', o', -, rfl⟩ := System.State.step_cases hs
        exact System.State.move_pc_of_ne s q' o' (Ne.symm hi)
      have hf := (h.inv.rely hpre (Ne.symm hi)).frame t
      exact .inr ⟨e, q, hmem ▸ hf.1.mpr he, hpc.trans hq⟩

theorem Abandoned.reach (hi : Abandoned s t) (h : Reachable s) (hr : System.Reach s s') :
    Abandoned s' t :=
  hr.invariant (I := (Abandoned · t)) hi fun _ hr hi hs _ => hi.step (h.trans hr) hs

end Pool

end MVSync
