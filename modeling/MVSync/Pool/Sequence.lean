import MVSync.Pool.Due

/-!
# Submit calls that come one after the other

The steps of a call of `submit` or `submit_on` that no other call meddles with are
those of `run` on its task, and they read what the call found when it began
(`Pool.InCall`).  So what becomes of the task is decided by that
(`Shared.Resolves`), and a sequence of such calls keeps its tasks exactly if each
of them is resolved (`Pool.inline_keeps`).
-/

namespace MVSync

open Concurrency Pool

variable {V P : Type} {cfg : Specs} {prog : Program V P} {m m₀ : Shared V P} {i : Tid}
  {t u : TaskId} {x : Task} {op : Op V P} {e e' : CallerId} {c : CallerInput}

/-! ## The steps of a call -/

namespace Pool

variable {s s' : (pool cfg prog).State} {a : (pool cfg prog).Action}

/-- No caller has a task. -/
def Unoccupied (s : (pool cfg prog).State) : Prop :=
  ∀ e t, (s.mem.cell t).owner ≠ .thread (.caller e)

/-- A step while caller `e` is in a call: nobody cancels, and nobody begins a submit
call. -/
structure During (e : CallerId) (s : (pool cfg prog).State) (a : (pool cfg prog).Action) :
    Prop where
  cancel : cancels a = false
  own : a.tid = .caller e → caller s e ≠ .idle
  other : a.tid ≠ .caller e → names a = []

/-- The call that caller `e` was in is over. -/
def CallOver (e : CallerId) (s : (pool cfg prog).State) : Prop :=
  caller s e = .idle ∨ ∃ q, caller s e = .panicked q

end Pool

/-- `run` settles the task: one of its three tests lets the task through, and if
that is `can_execute`, the body does not panic. -/
def Shared.Resolves (prog : Program V P) (m : Shared V P) (x : Task) : Prop :=
  m.isPanicked x = true ∨ m.isCancelled x = true ∨
    m.canExecute x = true ∧ ∀ q, ¬prog.Evals x.id (.error q)

/-- What the tests of `run` read is as in `m₀`. -/
structure Shared.Same (m₀ m : Shared V P) (x : Task) : Prop where
  pred : m.predState x = m₀.predState x
  state : (m.cell x.id).state = (m₀.cell x.id).state
  sem : m.sem = m₀.sem

theorem Shared.Same.canExecute (h : m₀.Same m x) : m.canExecute x = m₀.canExecute x := by
  simp only [Shared.canExecute, h.pred, h.sem]

namespace Pool

variable {s s' : (pool cfg prog).State}

/-- The call that began over `m₀` has settled its task or lost it. -/
def Ended (m₀ : Shared V P) (x : Task) (s : (pool cfg prog).State) : Prop :=
  m₀.Resolves prog x ∨ ¬m₀.Resolves prog x ∧ Abandoned s x.id

end Pool

/-- The pass of `run` after it has taken its task. -/
def Pass.Last (p : Pass) : Prop := p.all = false ∧ p.todo = []

/-- Where a call of `run` on `x` is that began over `m₀`. -/
def CallerPc.Course (m₀ : Shared V P) (x : Task) (s : (pool cfg prog).State) :
    CallerPc V P → Prop
  | .run p => p.all = false ∧ (p.todo = [x] ∧ m₀.Same s.mem x ∨ p.todo = [] ∧ Ended m₀ x s)
  | .isPanicked y p | .isCancelled y p => y = x ∧ p.Last ∧ m₀.Same s.mem x
  | .isCancelledSelf y p =>
      y = x ∧ p.Last ∧ m₀.Same s.mem x ∧ m₀.predState x ≠ .cancelled
  | .canExecute y _ p => y = x ∧ p.Last ∧ m₀.Same s.mem x ∧ m₀.isCancelled x = false
  | .replace y _ _ _ p => y = x ∧ p.Last ∧ m₀.isCancelled x = true
  | .newSignal y p | .block y _ p =>
      y = x ∧ p.Last ∧ m₀.isCancelled x = false ∧ m₀.canExecute x = true ∧
        s.mem.predState x = .ready
  | .poll y pc p =>
      y = x ∧ p.Last ∧ m₀.isCancelled x = false ∧ m₀.canExecute x = true ∧
        s.mem.predState x = .ready ∧ ∀ r st f, pc ≠ .replace r st f
  | .settle y _ _ p => y = x ∧ p.Last ∧ m₀.Resolves prog x
  | .idle => Ended m₀ x s
  | .unwind _ | .panicked _ => ¬m₀.Resolves prog x ∧ Abandoned s x.id
  | _ => False

/-- The operations that lose a task. -/
def Op.loses : Op V P → Bool
  | .dropTask _ | .futurePanics _ => true
  | _ => false

theorem pollNext_panics {pends : Bool} {pc : PollPc V P} {q : Payload P}
    (h : pollNext prog x pends pc m = some (.err q, op)) : op = .futurePanics x.id := by
  cases pollNext_step h with
  | takePending | takeNone | panic => rfl

theorem pollNext_loses {pends : Bool} {pc : PollPc V P} {r : PollResult V P}
    (h : pollNext prog x pends pc m = some (r, op)) (ho : op.loses = true) :
    ∃ q, r = .err q := by
  cases pollNext_step h with
  | takePending | takeNone | panic => exact ⟨_, rfl⟩
  | _ => cases ho

theorem settleNext_loses {site : Site} {sp : SettlePc} {sp' : Option SettlePc}
    (h : settleNext x site sp = (sp', op)) : op.loses = false := by
  unfold settleNext at h
  split at h <;> cases h <;> rfl

theorem Program.Built.canExecute (hx : prog.Built x) :
    m.canExecute x = m.canExecute (prog.task x.id) := by
  simp only [Shared.canExecute, Shared.predState, Program.task, hx.inner, hx.wait]

/-- The poll of a task whose predecessor is `Ready` does not write the outcome of
the predecessor. -/
theorem pollNext_ready {pends : Bool} {pc pc' : PollPc V P} (hb : prog.Built x)
    (hk : pc.Knows prog x m) (hr : m.predState x = .ready)
    (h : pollNext prog x pends pc m = some (.more pc', op)) :
    ∀ r st f, pc' ≠ .replace r st f := by
  have hpred : ∀ {p}, prog.pred x.id = some p → (m.cell p).state = .ready := by
    intro p hp
    rw [← hb.pred] at hp
    simpa [Shared.predState, hp] using hr
  cases pollNext_step h with
  | predPanicked hs =>
      rw [hpred hk] at hs
      cases hs
  | predCancelled hs =>
      rw [hpred hk] at hs
      simp at hs
  | _ => simp

namespace Pool

variable {s s' s₀ : (pool cfg prog).State} {a : (pool cfg prog).Action}

/-- A future that is ready without writing the outcome of its predecessor has
returned. -/
theorem Reachable.resolves_of_ready (h : Reachable s) (he : m₀.canExecute x = true)
    {pends : Bool} {pc : PollPc V P}
    (hpc : ∀ r st f, pc ≠ .replace r st f) (hpre : op.Pre prog i s.mem)
    (hn : pollNext prog x pends pc s.mem = some (.ready, op)) : m₀.Resolves prog x := by
  refine .inr (.inr ⟨he, fun q hq => ?_⟩)
  cases pollNext_step hn with
  | silent => exact hpre
  | replace => exact hpc _ _ _ rfl
  | writeReady =>
      have hcell := h.inv.life.cell x.id
      rw [CellOk, hpre.2] at hcell
      obtain ⟨-, -, r, -, hr⟩ := hcell
      cases hr.unique hq

/-- A body that panics is the one of a task that `run` does not settle. -/
theorem Reachable.not_resolves_of_panic (h : Reachable s) (hm : m₀.Calm)
    (hno : m₀.isCancelled x = false) (hpre : (Op.futurePanics x.id).Pre prog i s.mem) :
    ¬m₀.Resolves prog x := by
  obtain ⟨v, q, hat, hq⟩ := hpre
  have hcell := h.inv.life.cell x.id
  rw [CellOk, hat.2] at hcell
  have hev := h.inv.life.evals_body (t := x.id) (v := v) (by simp [hcell.2.1])
  rintro (hp | hc | ⟨-, he⟩)
  · simp [hm.isPanicked x] at hp
  · simp [hno] at hc
  · exact he q (hq ▸ hev)

theorem not_resolves (hm : m₀.Calm) (hno : m₀.isCancelled x = false)
    (he : m₀.canExecute x = false) : ¬m₀.Resolves prog x := by
  rintro (hp | hc | ⟨hx, -⟩)
  · simp [hm.isPanicked x] at hp
  · simp [hno] at hc
  · simp [he] at hx

/-- A step of a call of `run` on `x`. -/
theorem Reachable.course_of_step (hc : cfg.threadCount = 0) (h : Reachable s) (hx : prog.Built x)
    (hm : m₀.Calm) {p p' : CallerPc V P} (hp : Pool.caller s e = p)
    (hn : callerNext cfg prog e c p s.mem = some (p', op))
    (hs : s.step (call e c) = some s') (hmem : s'.mem = op.exec s.mem)
    (hpred : s'.mem.predState x = s.mem.predState x) (hidle : p ≠ .idle)
    (hi : p.Course m₀ x s) : p'.Course m₀ x s' ∧ (op.loses = true → ¬m₀.Resolves prog x) := by
  have hloc := h.caller e
  rw [hp] at hloc
  have ho : Performs s (call e c) op := by
    refine ⟨p', ?_⟩
    show callerNext cfg prog e c (Pool.caller s e) s.mem = some (p', op)
    rw [hp]
    exact hn
  have hpre := h.performs ho
  have hlost : Abandoned s x.id → Abandoned s' x.id := fun ha => ha.step h hs
  have hended : Ended m₀ x s → Ended m₀ x s' := fun he => he.imp_right fun ha => ⟨ha.1, hlost ha.2⟩
  have refused : ∀ {ss q}, p = .canExecute x ss q → m₀.Same s.mem x → m₀.isCancelled x = false →
      p.refuses s.mem = some x → ¬m₀.Resolves prog x := by
    rintro ss q rfl hsame hno hr
    refine not_resolves hm hno ?_
    rw [← hsame.canExecute, hx.canExecute]
    exact hloc.canExecute_of_refuses hr
  cases callerNext_step hn with
  | inline | submit | cancel | handleWait | handleWaitAsync | wait | waitAsync | unbound
  | wakeWorker | wakeCaller | dropQueue => exact absurd rfl hidle
  | @next q y todo hq =>
      obtain ⟨ha, ⟨hy, hsame⟩ | ⟨hnil, -⟩⟩ := hi
      · obtain ⟨rfl, rfl⟩ := List.cons.inj (hq.symm.trans hy)
        exact ⟨⟨rfl, ⟨ha, rfl⟩, hmem ▸ hsame⟩, by simp [Op.loses]⟩
      · simp [hq] at hnil
  | @endRun q hq ha =>
      obtain ⟨-, ⟨hy, -⟩ | ⟨-, he⟩⟩ := hi
      · simp [hq] at hy
      · exact ⟨hended he, by simp [Op.loses]⟩
  | again hq ha | giveUp hq ha =>
      have hne := hi.1
      simp [ha] at hne
  | isPanicked hpan => simp [(h.threadless hc).calm.isPanicked] at hpan
  | notPanicked =>
      obtain ⟨rfl, hl, hsame⟩ := hi
      exact ⟨⟨rfl, hl, hmem ▸ hsame⟩, by simp [Op.loses]⟩
  | predCancelled hst =>
      obtain ⟨rfl, hl, hsame⟩ := hi
      exact ⟨⟨rfl, hl, by simp [Shared.isCancelled, ← hsame.pred, hst]⟩, by simp [Op.loses]⟩
  | predNotCancelled hst =>
      obtain ⟨rfl, hl, hsame⟩ := hi
      exact ⟨⟨rfl, hl, hmem ▸ hsame, hsame.pred ▸ hst⟩, by simp [Op.loses]⟩
  | selfCancelled hst =>
      obtain ⟨rfl, hl, hsame, -⟩ := hi
      exact ⟨⟨rfl, hl, by simp [Shared.isCancelled, ← hsame.state, hst]⟩, by simp [Op.loses]⟩
  | selfNotCancelled hst =>
      obtain ⟨rfl, hl, hsame, hne⟩ := hi
      refine ⟨⟨rfl, hl, hmem ▸ hsame, Bool.or_eq_false_iff.mpr ⟨?_, ?_⟩⟩, by simp [Op.loses]⟩
      · exact Bool.eq_false_iff.mpr fun hb => hne (TaskState.beq_cancelled.mp hb)
      · rw [← hsame.state]
        exact Bool.eq_false_iff.mpr fun hb => hst (TaskState.beq_cancelled.mp hb)
  | signalled =>
      obtain ⟨rfl, hl, hsame, hno⟩ := hi
      exact ⟨⟨rfl, hl, hmem ▸ hsame, hno⟩, by simp [Op.loses]⟩
  | unsignalledKept _ ha | predPendingKept _ ha =>
      obtain ⟨-, ⟨hne, -⟩, -⟩ := hi
      simp [ha] at hne
  | unsignalledDropped hg ha =>
      obtain ⟨rfl, hl, hsame, hno⟩ := hi
      have hnot := refused rfl hsame hno (by simp [CallerPc.refuses, hg])
      exact ⟨⟨ha, .inr ⟨hl.2, .inr ⟨hnot, (abandoned_of_dropTask h ho hs).2⟩⟩⟩, fun _ => hnot⟩
  | predPendingDropped hst ha =>
      obtain ⟨rfl, hl, hsame, hno⟩ := hi
      have hnot := refused rfl hsame hno (by simp [CallerPc.refuses, hst])
      exact ⟨⟨ha, .inr ⟨hl.2, .inr ⟨hnot, (abandoned_of_dropTask h ho hs).2⟩⟩⟩, fun _ => hnot⟩
  | @pass y q hst =>
      obtain ⟨rfl, hl, hsame, hno⟩ := hi
      have he : m₀.canExecute y = true := by
        rw [← hsame.canExecute, Shared.canExecute, hx.wait]
        exact Bool.and_eq_true_iff.mpr
          ⟨List.all_eq_true.mpr hpre.2, TaskState.bne_pending.mpr hst⟩
      refine ⟨⟨rfl, hl, hno, he, ?_⟩, by simp [Op.loses]⟩
      rw [hpred]
      cases hst' : s.mem.predState y with
      | pending => exact absurd hst' hst
      | ready => rfl
      | panicked r =>
          have hpan := (h.threadless hc).calm.isPanicked y
          simp [Shared.isPanicked, hst', TaskState.isPanicked] at hpan
      | cancelled => simp [Shared.isCancelled, ← hsame.pred, hst'] at hno
  | replace =>
      obtain ⟨rfl, hl, hcan⟩ := hi
      exact ⟨⟨rfl, hl, .inr (.inl hcan)⟩, by simp [Op.loses]⟩
  | newSignal =>
      obtain ⟨rfl, hl, hno, he, hr⟩ := hi
      exact ⟨⟨rfl, hl, hno, he, hpred ▸ hr, fun _ _ _ hpc => by cases hpc⟩, by simp [Op.loses]⟩
  | more hpoll =>
      obtain ⟨rfl, hl, hno, he, hr, -⟩ := hi
      refine ⟨⟨rfl, hl, hno, he, hpred ▸ hr, pollNext_ready hx hloc.knows hr hpoll⟩, fun hlo => ?_⟩
      obtain ⟨-, ⟨⟩⟩ := pollNext_loses hpoll hlo
  | pending hpoll =>
      obtain ⟨rfl, hl, hno, he, hr, -⟩ := hi
      refine ⟨⟨rfl, hl, hno, he, hpred ▸ hr⟩, fun hlo => ?_⟩
      obtain ⟨-, ⟨⟩⟩ := pollNext_loses hpoll hlo
  | err hpoll =>
      obtain ⟨rfl, hl, hno, he, hr, -⟩ := hi
      obtain rfl := pollNext_panics hpoll
      have hnot := h.not_resolves_of_panic hm hno hpre
      exact ⟨⟨hnot, (abandoned_of_futurePanics hc h ho hs).2.1⟩, fun _ => hnot⟩
  | ready hpoll =>
      obtain ⟨rfl, hl, hno, he, hr, hpc⟩ := hi
      refine ⟨⟨rfl, hl, h.resolves_of_ready he hpc hpre hpoll⟩, fun hlo => ?_⟩
      obtain ⟨-, ⟨⟩⟩ := pollNext_loses hpoll hlo
  | unblock =>
      obtain ⟨rfl, hl, hno, he, hr⟩ := hi
      exact ⟨⟨rfl, hl, hno, he, hpred ▸ hr, fun _ _ _ hpc => by cases hpc⟩, by simp [Op.loses]⟩
  | settle hset =>
      obtain ⟨rfl, hl, hr⟩ := hi
      exact ⟨⟨rfl, hl, hr⟩, fun hlo => absurd hlo (by simp [settleNext_loses hset])⟩
  | settled hset =>
      obtain ⟨rfl, hl, hr⟩ := hi
      exact ⟨⟨hl.1, .inr ⟨hl.2, .inl hr⟩⟩, fun hlo => absurd hlo (by simp [settleNext_loses hset])⟩
  | unwind => exact ⟨⟨hi.1, hlost hi.2⟩, by simp [Op.loses]⟩
  | _ => exact hi.elim

/-- No caller has a task but `e`, which has `t` at most. -/
def Sole (e : CallerId) (t : TaskId) (s : (pool cfg prog).State) : Prop :=
  ∀ e' u, (s.mem.cell u).owner = .thread (.caller e') → e' = e ∧ u = t

/-- Only a submit call gives a task to a caller. -/
theorem Reachable.owner_of_step (h : Reachable s) (hs : s.step a = some s')
    (ho : (s'.mem.cell u).owner = .thread (.caller e)) :
    (s.mem.cell u).owner = .thread (.caller e) ∨
      a.tid = .caller e ∧ Pool.caller s e = .idle ∧ u ∈ names a := by
  obtain ⟨o, hp, hmem⟩ := mem_of_step hs
  have hpre := h.performs hp
  rcases Op.owner_cases hpre h.inv.places u with hsame | hcar
  · exact .inl (by rw [← hsame, ← hmem, ho])
  rw [← hmem, ho] at hcar
  have hbegins : u ∈ o.begins ∧ a.tid = .caller e := by
    generalize (s.mem.cell u).owner = o₁ at hcar
    cases hcar with
    | beginSubmit _ _ hu | beginRun _ _ hu => exact ⟨hu, hpre.1⟩
  obtain ⟨i, c⟩ := a
  obtain rfl : i = .caller e := hbegins.2
  obtain ⟨q, hn⟩ := hp
  obtain ⟨hidle, all, f, ts, hc, hu⟩ := callerNext_begins hn hbegins.1
  exact .inr ⟨rfl, hidle, by simp [names, hc, hu]⟩

theorem Sole.step (hi : Sole e t s) (h : Reachable s) (ha : During e s a)
    (hs : s.step a = some s') : Sole e t s' := by
  intro e' u ho
  rcases h.owner_of_step hs ho with hold | ⟨he', hidle, hu⟩
  · exact hi e' u hold
  · by_cases he : e' = e
    · subst he
      exact absurd hidle (ha.own he')
    · have hne : a.tid ≠ .caller e := by
        rw [he']
        simpa using he
      simp [ha.other hne] at hu

/-- Nobody but caller `e` writes a state or signals a semaphore, and `e` writes the
one of its task. -/
theorem Sole.frame (hc : cfg.threadCount = 0) (hi : Sole e t s) (h : Reachable s)
    (ha : cancels a = false) (hs : s.step a = some s') :
    (∀ u, a.tid = .caller e → u ≠ t → (s'.mem.cell u).state = (s.mem.cell u).state) ∧
      (a.tid ≠ .caller e → s'.mem.sem = s.mem.sem ∧
        ∀ u, (s'.mem.cell u).state = (s.mem.cell u).state) := by
  obtain ⟨o, ho, hmem⟩ := mem_of_step hs
  have hpre := h.performs ho
  have hless := h.threadless hc
  have held : ∀ {u st}, s.mem.At a.tid u st → a.tid = .caller e ∧ u = t := by
    intro u st hat
    obtain ⟨e', he'⟩ := hless.tid_eq hat
    obtain ⟨rfl, rfl⟩ := hi e' u (he' ▸ hat.1)
    exact ⟨he', rfl⟩
  have written : ∀ u, (s'.mem.cell u).state ≠ (s.mem.cell u).state →
      a.tid = .caller e ∧ u = t := by
    intro u hne
    rw [hmem] at hne
    have hw := (Op.state_cases o s.mem u).resolve_left hne
    cases o <;> simp only [Op.writes, reduceCtorEq, Option.ite_none_right_eq_some] at hw
    all_goals obtain ⟨rfl, -⟩ := hw
    case cancel u =>
      obtain ⟨q, hn⟩ := ho
      obtain ⟨i, c⟩ := a
      cases i with
      | dispatcher => cases dispatcherNext_ofCaller hn
      | worker w => cases workerNext_ofCaller hn
      | caller e' =>
          obtain rfl : c = .cancel u := callerNext_cancel hn
          cases ha
    case writeReady => exact held hpre
    case replace =>
      rcases hpre.1 with hat | ⟨r, hat⟩
      · exact held hat
      · exact held hat
    case replacePanicked => exact held hpre.2
  refine ⟨fun u _ hu => ?_, fun hne => ⟨funext fun g => ?_, fun u => ?_⟩⟩
  · by_contra hst
    exact hu (written u hst).2
  · rw [hmem]
    have hsem : (o.exec s.mem).sem g = s.mem.sem g ∨ ∃ u, o = .signalSem u g := Op.sem_eq g
    rcases hsem with hsame | ⟨u, rfl⟩
    · exact hsame
    · exact absurd (held hpre.1).1 hne
  · by_contra hst
    exact hne (written u hst).1

/-- A call of `run` on `x` by caller `e` that began in `s₀`. -/
structure InCall (s₀ : (pool cfg prog).State) (e : CallerId) (x : Task)
    (s : (pool cfg prog).State) : Prop where
  sole : Sole e x.id s
  course : (caller s e).Course s₀.mem x s
  lost : ∀ u, Abandoned s u → Abandoned s₀ u ∨ u = x.id ∧ ¬s₀.mem.Resolves prog x

/-- Only the caller that is in the call loses a task, the one of the call. -/
theorem InCall.tid_eq (hc : cfg.threadCount = 0) (hi : InCall s₀ e x s) (h : Reachable s)
    {o : Op V P} (ho : Performs s a o) (hu : o = .dropTask u ∨ o = .futurePanics u) :
    a.tid = .caller e ∧ u = x.id := by
  have hpre := h.performs ho
  have held : ∀ {st}, s.mem.At a.tid u st → a.tid = .caller e ∧ u = x.id := by
    intro st hat
    obtain ⟨e', he'⟩ := (h.threadless hc).tid_eq hat
    obtain ⟨rfl, rfl⟩ := hi.sole e' u (he' ▸ hat.1)
    exact ⟨he', rfl⟩
  rcases hu with rfl | rfl
  · exact held hpre.2
  · obtain ⟨v, q, hat, -⟩ := hpre
    exact held hat

end Pool

theorem CallerPc.Course.mono {s s' : (pool cfg prog).State} {p : CallerPc V P}
    (hi : p.Course m₀ x s) (hlost : Abandoned s x.id → Abandoned s' x.id)
    (hsame : m₀.Same s.mem x → m₀.Same s'.mem x)
    (hpred : s'.mem.predState x = s.mem.predState x) : p.Course m₀ x s' := by
  have hended : Ended m₀ x s → Ended m₀ x s' := fun he => he.imp_right fun ha => ⟨ha.1, hlost ha.2⟩
  cases p with
  | run p => exact ⟨hi.1, hi.2.imp (And.imp_right hsame) (And.imp_right hended)⟩
  | isPanicked | isCancelled => exact ⟨hi.1, hi.2.1, hsame hi.2.2⟩
  | isCancelledSelf | canExecute => exact ⟨hi.1, hi.2.1, hsame hi.2.2.1, hi.2.2.2⟩
  | newSignal | block => exact ⟨hi.1, hi.2.1, hi.2.2.1, hi.2.2.2.1, hpred ▸ hi.2.2.2.2⟩
  | poll =>
      exact ⟨hi.1, hi.2.1, hi.2.2.1, hi.2.2.2.1, hpred ▸ hi.2.2.2.2.1, hi.2.2.2.2.2⟩
  | idle => exact hended hi
  | unwind | panicked => exact ⟨hi.1, hlost hi.2⟩
  | _ => exact hi

namespace Pool

variable {s s' s₀ : (pool cfg prog).State} {a : (pool cfg prog).Action}

theorem InCall.predState (hc : cfg.threadCount = 0) (hx : prog.Built x) (hi : InCall s₀ e x s)
    (h : Reachable s) (ha : During e s a) (hs : s.step a = some s') :
    s'.mem.predState x = s.mem.predState x := by
  have hframe := hi.sole.frame hc h ha.cancel hs
  cases hp : x.inner.predecessor with
  | none => simp only [Shared.predState, hp]
  | some p =>
      simp only [Shared.predState, hp]
      have hne : p ≠ x.id := (Program.pred_lt (hx.pred ▸ hp)).ne
      by_cases he : a.tid = .caller e
      · exact hframe.1 p he hne
      · exact (hframe.2 he).2 p

/-- A step of the call goes on with it, or loses a task that the call did not resolve. -/
theorem InCall.own (hc : cfg.threadCount = 0) (hx : prog.Built x) (hm : s₀.mem.Calm)
    (hi : InCall s₀ e x s) (h : Reachable s) (ha : During e s a) (hs : s.step a = some s')
    (he : a.tid = .caller e) : (caller s' e).Course s₀.mem x s' ∧
      ∀ o, Performs s a o → o.loses = true → ¬s₀.mem.Resolves prog x := by
  have hpred := hi.predState hc hx h ha hs
  rcases step_cases hs with ⟨q, o, rfl, -, rfl⟩ | ⟨w, pends, q, o, rfl, -, rfl⟩ |
    ⟨e', c, q, o, rfl, hn, rfl⟩
  · cases he
  · cases he
  · obtain rfl : e' = e := by cases he; rfl
    have hown := h.course_of_step hc hx hm rfl hn hs rfl hpred (ha.own rfl) hi.course
    refine ⟨?_, fun o' ho' => ?_⟩
    · rw [caller_move]
      exact hown.1
    · obtain rfl := ho'.unique ⟨q, hn⟩
      exact hown.2

theorem InCall.step (hc : cfg.threadCount = 0) (hx : prog.Built x) (hm : s₀.mem.Calm)
    (hi : InCall s₀ e x s) (h : Reachable s) (ha : During e s a) (hs : s.step a = some s') :
    InCall s₀ e x s' := by
  refine ⟨hi.sole.step h ha hs, ?_, fun u hu => ?_⟩
  · by_cases he : a.tid = .caller e
    · exact (hi.own hc hx hm h ha hs he).1
    · have hpc : caller s' e = caller s e := by
        obtain ⟨q, o, -, rfl⟩ := System.State.step_cases hs
        exact System.State.move_pc_of_ne s q o (Ne.symm he)
      obtain ⟨hsem, hstate⟩ := (hi.sole.frame hc h ha.cancel hs).2 he
      have hpred := hi.predState hc hx h ha hs
      rw [hpc]
      exact hi.course.mono (fun ht => ht.step h hs)
        (fun hsame => ⟨hpred.trans hsame.pred, (hstate x.id).trans hsame.state,
          hsem.trans hsame.sem⟩) hpred
  · have own : ∀ {o v}, Performs s a o → o = .dropTask v ∨ o = .futurePanics v →
        v = x.id ∧ ¬s₀.mem.Resolves prog x := by
      intro o v ho hv
      obtain ⟨he, hvx⟩ := hi.tid_eq hc h ho hv
      refine ⟨hvx, (hi.own hc hx hm h ha hs he).2 o ho ?_⟩
      rcases hv with rfl | rfl <;> rfl
    rcases abandoned_cases hc h hs hu with hold | ⟨ho, -⟩ | ⟨v, ho⟩
    · exact hi.lost u hold
    · exact .inr (own ho (.inl rfl))
    · have hr := (own ho (.inr rfl)).2
      rcases hu.2 with hg | ⟨e', q, he', -⟩
      · -- a panic takes no task from its owner
        obtain ⟨o, ho', hmem⟩ := mem_of_step hs
        obtain rfl := ho.unique ho'
        have hpfx := ((h.grows hs).cell u).wakes
        rw [hu.1, List.prefix_nil] at hpfx
        refine hi.lost u ⟨hpfx, .inl ?_⟩
        rcases Op.owner_cases (h.performs ho) h.inv.places u with hsame | hcar
        · rw [← hsame, ← hmem, hg]
        · generalize (s.mem.cell u).owner = o₁, (((Op.futurePanics v).exec s.mem).cell u).owner =
            o₂ at hcar
          cases hcar
      · exact .inr ⟨((hi.sole.step h ha hs) e' u he').2, hr⟩

/-- The first step of a call. -/
theorem begin_of_step (hc : cfg.threadCount = 0) (hidle : caller s e = .idle)
    (hone : c.SubmitsOne t) (hs : s.step (call e c) = some s') :
    Performs s (call e c) (.beginRun e [t]) ∧
      caller s' e = .run (.begin false [prog.task t]) ∧
      s'.mem = (Op.beginRun e [t]).exec s.mem := by
  rcases step_cases hs with ⟨q, o, ha, -⟩ | ⟨w, b, q, o, ha, -⟩ | ⟨e', c', q, o, ha, hn, rfl⟩
  · cases ha
  · cases ha
  cases ha
  have ho : Performs s (call e c) o := ⟨q, hn⟩
  rw [hidle] at hn
  have hsub : ∃ f, submitNext cfg prog e false f [t] s.mem = some (q, o) := by
    rcases hone with rfl | ⟨thread, rfl⟩
    · exact ⟨id, hn⟩
    · exact ⟨(·.setPreferredThread thread), hn⟩
  obtain ⟨f, hsub⟩ := hsub
  simp only [submitNext, hc] at hsub
  split at hsub
  · cases hsub
    exact ⟨ho, caller_move .., rfl⟩
  · cases hsub

/-- A call begins. -/
theorem Reachable.inCall (hc : cfg.threadCount = 0) (h : Reachable s) (hu : Unoccupied s)
    (hidle : Pool.caller s e = .idle) (hone : c.SubmitsOne t)
    (hs : s.step (call e c) = some s') : InCall s e (prog.task t) s' := by
  obtain ⟨ho, hpc, hmem⟩ := begin_of_step hc hidle hone hs
  have hstate : ∀ u, (s'.mem.cell u).state = (s.mem.cell u).state := by
    intro u
    rw [hmem]
    simp only [Op.exec, Shared.move]
    split <;> rfl
  refine ⟨fun e' u ho => ?_, ?_, fun u hu' => ?_⟩
  · rcases h.owner_of_step hs ho with hold | ⟨he, -, hname⟩
    · exact absurd hold (hu e' u)
    · obtain rfl : e = e' := by simpa [call] using he
      have hut : u = t := by
        rcases hone with rfl | ⟨thread, rfl⟩ <;>
          simpa [names, call, CallerInput.submits] using hname
      exact ⟨rfl, hut⟩
  · rw [hpc]
    refine ⟨rfl, .inl ⟨rfl, ?_, hstate t, ?_⟩⟩
    · simp only [Shared.predState]
      split
      · rfl
      · exact hstate _
    · rw [hmem]
      rfl
  · rcases abandoned_cases hc h hs hu' with hold | ⟨hd, -⟩ | ⟨v, hd⟩
    · exact .inl hold
    · cases ho.unique hd
    · cases ho.unique hd

/-- The states after calls of `submit` and `submit_on` that come one after the
other, each with the memory that it began over.  In between anything may happen
that submits nothing. -/
inductive Sequence (cfg : Specs) (prog : Program V P) :
    List (Shared V P × TaskId) → (pool cfg prog).State → Prop where
  | init : Sequence cfg prog [] (poolInit cfg prog)
  | between {calls : List (Shared V P × TaskId)} {s s' : (pool cfg prog).State}
      (a : (pool cfg prog).Action) (h : Sequence cfg prog calls s) (hs : s.step a = some s')
      (ha : names a = []) : Sequence cfg prog calls s'
  | call {calls : List (Shared V P × TaskId)} {s s₁ s' : (pool cfg prog).State} {e : CallerId}
      {c : CallerInput} {t : TaskId} (h : Sequence cfg prog calls s) (hidle : caller s e = .idle)
      (hone : c.SubmitsOne t) (hs : s.step (call e c) = some s₁)
      (hr : System.ReachVia (fun s a _ => During e s a) s₁ s') (ho : CallOver e s') :
      Sequence cfg prog (calls ++ [(s.mem, t)]) s'

/-- A call that is over has lost its task, and no other, if it did not resolve
it. -/
theorem InCall.over (hi : InCall s₀ e x s) (h : Reachable s) (h₀ : Reachable s₀)
    (hr : System.Reach s₀ s) (ho : CallOver e s) : Unoccupied s ∧
      ∀ u, Abandoned s u ↔ Abandoned s₀ u ∨ u = x.id ∧ ¬s₀.mem.Resolves prog x := by
  have hcourse := hi.course
  have htasks := (h.caller e).tasks
  refine ⟨fun e' u hu => ?_, fun u => ⟨hi.lost u, ?_⟩⟩
  · obtain ⟨rfl, -⟩ := hi.sole e' u hu
    rcases ho with hp | ⟨q, hp⟩ <;> rw [hp] at htasks <;>
      exact Shared.Has.nil_iff.mp (htasks _ rfl) u hu
  · rintro (hold | ⟨rfl, hno⟩)
    · exact hold.reach h₀ hr
    · rcases ho with hp | ⟨q, hp⟩ <;> rw [hp] at hcourse
      · exact (hcourse.resolve_left hno).2
      · exact hcourse.2

/-- Between the calls, no task is taken and none is lost. -/
theorem Unoccupied.step (hc : cfg.threadCount = 0) (hu : Unoccupied s) (h : Reachable s)
    (hs : s.step a = some s') (ha : names a = []) :
    Unoccupied s' ∧ ∀ u, Abandoned s' u → Abandoned s u := by
  have held : ∀ {u st}, ¬s.mem.At a.tid u st := by
    intro u st hat
    obtain ⟨e, he⟩ := (h.threadless hc).tid_eq hat
    exact hu e u (he ▸ hat.1)
  refine ⟨fun e u ho => ?_, fun u hlost => ?_⟩
  · rcases h.owner_of_step hs ho with hold | ⟨-, -, hname⟩
    · exact hu e u hold
    · simp [ha] at hname
  · rcases abandoned_cases hc h hs hlost with hold | ⟨ho, -⟩ | ⟨v, ho⟩
    · exact hold
    · exact (held (h.performs ho).2).elim
    · obtain ⟨w, q, hat, -⟩ := h.performs ho
      exact (held hat).elim

/-- Calls one after the other lose exactly the tasks that `run` does not resolve. -/
theorem Sequence.abandoned_iff (hc : cfg.threadCount = 0) {calls : List (Shared V P × TaskId)}
    (h : Sequence cfg prog calls s) : Reachable s ∧ Unoccupied s ∧
      ∀ u, Abandoned s u ↔ ∃ b ∈ calls, b.2 = u ∧ ¬b.1.Resolves prog (prog.task u) := by
  induction h with
  | init => exact ⟨.init, fun e t => by simp [poolInit, Shared.init, Cell.init],
      by simp [Abandoned.init]⟩
  | @between calls s s' a _ hs ha ih =>
      obtain ⟨hr, hu, hiff⟩ := ih
      obtain ⟨hu', hkept⟩ := hu.step hc hr hs ha
      refine ⟨.step a hr hs trivial, hu', fun u => ?_⟩
      rw [← hiff]
      exact ⟨hkept u, fun hl => hl.step hr hs⟩
  | @call calls s s₁ s' e c t _ hidle hone hs hvia ho ih =>
      obtain ⟨hr, hu, hiff⟩ := ih
      have hr₁ : Reachable s₁ := .step _ hr hs trivial
      have hm : s.mem.Calm := (hr.threadless hc).calm
      have hr' : Reachable s' := hr₁.trans hvia.reach
      have hin : InCall s e (prog.task t) s' :=
        hvia.invariant (hr.inCall hc hu hidle hone hs) fun a hv hi hs' ha =>
          hi.step hc (prog.built_task t) hm (hr₁.trans hv.reach) ha hs'
      obtain ⟨hu', hover⟩ := hin.over hr' hr (.trans (.step _ .init hs trivial) hvia.reach) ho
      refine ⟨hr', hu', fun u => ?_⟩
      rw [hover, hiff]
      constructor
      · rintro (⟨b, hb, hbu⟩ | ⟨rfl, hno⟩)
        · exact ⟨b, List.mem_append_left _ hb, hbu⟩
        · exact ⟨(s.mem, _), List.mem_append_right _ (List.mem_singleton.mpr rfl), rfl, hno⟩
      · rintro ⟨b, hb, hbu⟩
        rcases List.mem_append.mp hb with hb | hb
        · exact .inl ⟨b, hb, hbu⟩
        · obtain rfl := List.mem_singleton.mp hb
          obtain ⟨rfl, hno⟩ := hbu
          exact .inr ⟨rfl, hno⟩

/-- Without threads, every task is accounted for in every run in which each submit
call comes when its task is due and no body panics, whatever the callers do
besides.  Of calls that come one after the other, exactly those keep their task that
`run` resolves.  A task that is not accounted for is so for ever. -/
theorem inline_keeps (hc : cfg.threadCount = 0) :
    (∀ s : (pool cfg prog).State,
      System.ReachVia (fun s a _ => Timely s a) (poolInit cfg prog) s → ∀ t, Accounted s t) ∧
      (∀ calls (s : (pool cfg prog).State) t, Sequence cfg prog calls s →
        (Accounted s t ↔ ∀ b ∈ calls, b.2 = t → b.1.Resolves prog (prog.task t))) ∧
      ∀ (s s' : (pool cfg prog).State) t, Reachable s → ¬Accounted s t → System.Reach s s' →
        ¬Accounted s' t := by
  refine ⟨fun s h t => ?_, fun calls s t h => ?_, fun s s' t h ht hr => ?_⟩
  · exact (accounted_iff hc h.reach).mpr (not_abandoned_of_timely hc h)
  · obtain ⟨hr, -, hiff⟩ := h.abandoned_iff hc
    rw [accounted_iff hc hr, hiff]
    push Not
    rfl
  · rw [accounted_iff hc h, not_not] at ht
    rw [accounted_iff hc (h.trans hr), not_not]
    exact ht.reach h hr

end Pool

/-! ## Two runs -/

set_option maxRecDepth 2000

/-- The second function was submitted first, and `run` is at the semaphore that it
waits on. -/
def refusedRun : (pool Specs.inline relay).State :=
  (poolInit Specs.inline relay).after (call 0 (.submit 1) :: List.replicate 4 (call 0 .proceed))

/-- The function is dropped, and the call returns. -/
def droppedRun : (pool Specs.inline relay).State :=
  refusedRun.after (List.replicate 2 (call 0 .proceed))

/-- A function that waits on a semaphore is dropped when it is submitted before
the function that signals it. -/
theorem Pool.inline_not_keeps :
    ¬∀ s : (pool Specs.inline relay).State, Reachable s → ∀ t, Accounted s t := by
  intro h
  have hr : Reachable droppedRun := .after _ (.after _ .init)
  exact (accounted_iff rfl hr).mp (h droppedRun hr 1) ⟨by decide, .inl (by decide)⟩

/-- The task of a call of `submit` or `submit_on`. -/
def submitted : (pool cfg prog).Action → Option TaskId
  | ⟨.caller _, .submit t⟩ | ⟨.caller _, .submitOn t _⟩ => some t
  | _ => none

/-- The task of a submit call can be executed, and the step is no panic of a
future. -/
def timely (s : (pool cfg prog).State) (a : (pool cfg prog).Action) : Bool :=
  (submitted a).all (fun t => s.mem.canExecute (prog.task t)) &&
    match s.next a with
    | some (_, .futurePanics _) => false
    | _ => true

theorem Pool.timely_of_test {s : (pool cfg prog).State} {a : (pool cfg prog).Action}
    (h : timely s a = true) : Timely s a := by
  obtain ⟨hdue, hcalm⟩ := Bool.and_eq_true_iff.mp h
  refine ⟨fun e c t ha _ hone => .inl ?_, fun t ⟨q, hn⟩ => ?_⟩
  · have hone' : submitted a = some t := by
      rcases hone with rfl | ⟨thread, rfl⟩ <;> rw [ha] <;> rfl
    simpa [hone'] using hdue
  · simp [hn] at hcalm

/-- The functions were submitted one after the other. -/
def keptRun : (pool Specs.inline relay).State :=
  (poolInit Specs.inline relay).after (call 0 (.submit 0) :: List.replicate 15 (call 0 .proceed) ++
    call 0 (.submit 1) :: List.replicate 15 (call 0 .proceed))

theorem keptRun_timely :
    System.ReachVia (fun s a _ => Timely s a) (poolInit Specs.inline relay) keptRun :=
  .along .init (fun _ _ _ _ => timely_of_test) _ (by decide)

/-- No `cancel` and no submit call, and caller `0` is in a call. -/
def inTheCall (s : (pool cfg prog).State) (a : (pool cfg prog).Action) : Bool :=
  !cancels a && (names a).isEmpty &&
    match caller s 0 with
    | .idle => false
    | _ => true

theorem Pool.during_of_test {s : (pool cfg prog).State} {a : (pool cfg prog).Action}
    (h : inTheCall s a = true) : During 0 s a := by
  obtain ⟨hca, hp⟩ := Bool.and_eq_true_iff.mp h
  obtain ⟨hc, hn⟩ := Bool.and_eq_true_iff.mp hca
  refine ⟨by simpa using hc, fun _ hidle => ?_, fun _ => List.isEmpty_iff.mp hn⟩
  simp [hidle] at hp

/-- The call that drops the function. -/
theorem droppedRun_sequence :
    Sequence Specs.inline relay [((poolInit Specs.inline relay).mem, 1)] droppedRun :=
  .call (e := 0) (c := .submit 1) .init rfl (.inl rfl) rfl
    (.along .init (fun _ _ _ _ => during_of_test) (List.replicate 6 (call 0 .proceed)) (by decide))
    (.inl rfl)

/-- The functions of a timely run are accounted for.  The one that was submitted too
early is not, as `run` did not resolve it, and it is never again. -/
theorem Pool.inline_keeps_keptRun :
    Accounted keptRun 0 ∧ Accounted keptRun 1 ∧ ¬Accounted droppedRun 1 ∧
      ¬Accounted (droppedRun.after [call 1 (.submit 0)]) 1 := by
  have h := @inline_keeps _ _ Specs.inline relay rfl
  have hlost : ¬Accounted droppedRun 1 := by
    intro hacc
    rcases (h.2.1 _ _ 1 droppedRun_sequence).mp hacc _ (List.mem_singleton.mpr rfl) rfl with
      hp | hc | ⟨he, -⟩
    · exact absurd hp (by decide)
    · exact absurd hc (by decide)
    · exact absurd he (by decide)
  exact ⟨h.1 _ keptRun_timely 0, h.1 _ keptRun_timely 1, hlost,
    h.2.2 _ _ 1 (.after _ (.after _ .init)) hlost (.after _ .init)⟩

end MVSync
