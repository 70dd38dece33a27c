import MVSync.Pool.Passes

/-!
# What a turn of `run_all` does

A turn settles the task at hand in one of three ways, or it keeps the task.  For the tasks
that it settles, this is what changes in the memory: the cell of the task, the
semaphores that the task signals, and what a task that returned has taken from its predecessor.
-/

namespace MVSync

open Concurrency

variable {V P : Type} {prog : Program V P} {e : CallerId} {m m' : Shared V P} {x : Task}
  {t p : TaskId} {ops : List (Op V P)}

namespace RunAll

/-! ## The change -/

/-- How a task ends. -/
inductive Fate (V : Type) where
  | returned (v : V)
  | cancelled
  | panicked

/-- The state that is written. -/
def Fate.state : Fate V → TaskState P
  | .returned _ => .ready
  | .cancelled => .cancelled
  | .panicked => .panicked .unit

/-- How often the body runs. -/
def Fate.runs : Fate V → Nat
  | .returned _ => 1
  | _ => 0

/-- The task is settled: both loops at the end of its arm are over. -/
def Done (log : List (Op V P)) (t : TaskId) : Prop := ∃ home site, Op.wakeQueue t home site ∈ log

/-- What changed when `x` was settled. -/
structure Effect (x : Task) (f : Fate V) (m m' : Shared V P) : Prop where
  state : (m'.cell x.id).state = f.state
  result : ∀ v, f = .returned v → (m'.cell x.id).buffer = some v
  signal : (m'.cell x.id).signal.ready = true
  invoked : (m'.cell x.id).invoked.length = (m.cell x.id).invoked.length + f.runs
  sem : ∀ s, m'.sem s = true ↔ m.sem s = true ∨ s ∈ x.semaphores
  keeps : ∀ t ≠ x.id, (m'.cell t).state = (m.cell t).state ∧
    (m'.cell t).invoked = (m.cell t).invoked
  /-- Only the predecessor of a task that returned loses its wake-up and its result. -/
  frame : ∀ t ≠ x.id, (x.inner.predecessor = some t → ∀ v, f ≠ .returned v) →
    m'.cell t = m.cell t

theorem execAll_signals (t : TaskId) (ss : List SemId) (m : Shared V P) :
    (m.execAll (ss.map (.signalSem t))).cell = m.cell ∧
      ∀ s, (m.execAll (ss.map (.signalSem t))).sem s = true ↔ m.sem s = true ∨ s ∈ ss := by
  induction ss generalizing m with
  | nil => exact ⟨rfl, fun s => by simp⟩
  | cons s' ss ih =>
      obtain ⟨hcell, hsem⟩ := ih ((Op.signalSem t s').exec m)
      refine ⟨hcell, fun s => (hsem s).trans ?_⟩
      by_cases hs : s = s'
      · simp [Op.exec, hs]
      · simp [Op.exec, hs]

theorem settle_cell (x : Task) (site : Site) (m : Shared V P) :
    (m.execAll (settle x site)).cell = Function.update m.cell x.id
      { m.cell x.id with
        signal := (m.cell x.id).signal.wake.1
        wakes := (m.cell x.id).wakes ++ [site]
        queueWakes := (m.cell x.id).queueWakes ++ [site]
        owner := .gone
        stage := .settled site } := by
  obtain ⟨hcell, -⟩ := execAll_signals x.id x.semaphores m
  simp [settle, Op.exec, Shared.modify, hcell]

theorem settle_sem (x : Task) (site : Site) (m : Shared V P) (s : SemId) :
    (m.execAll (settle x site)).sem s = true ↔ m.sem s = true ∨ s ∈ x.semaphores := by
  obtain ⟨-, hsem⟩ := execAll_signals x.id x.semaphores m
  simpa [settle, Op.exec] using hsem s

/-- A task whose fate is written is settled. -/
theorem Effect.of_settle {f : Fate V} (site : Site) (hstate : (m'.cell x.id).state = f.state)
    (hresult : ∀ v, f = .returned v → (m'.cell x.id).buffer = some v)
    (hinvoked : (m'.cell x.id).invoked.length = (m.cell x.id).invoked.length + f.runs)
    (hsem : m'.sem = m.sem)
    (hkeeps : ∀ t ≠ x.id, (m'.cell t).state = (m.cell t).state ∧
      (m'.cell t).invoked = (m.cell t).invoked)
    (hframe : ∀ t ≠ x.id, (x.inner.predecessor = some t → ∀ v, f ≠ .returned v) →
      m'.cell t = m.cell t) : Effect x f m (m'.execAll (settle x site)) := by
  have hcell : ∀ t ≠ x.id, (m'.execAll (settle x site)).cell t = m'.cell t := by
    intro t ht
    rw [settle_cell, Function.update_of_ne ht]
  constructor
  · simpa [settle_cell] using hstate
  · simpa [settle_cell] using hresult
  · simp [settle_cell]
  · simpa [settle_cell] using hinvoked
  · intro s
    rw [settle_sem, hsem]
  · intro t ht
    rw [hcell t ht]
    exact hkeeps t ht
  · intro t ht hp
    rw [hcell t ht]
    exact hframe t ht hp

/-- The arms of a task that is skipped. -/
theorem effect_replace {f : Fate V} (hf : f.runs = 0) (site : Site) (fin : Finish) :
    Effect x f m (m.execAll (.replace x.id f.state fin :: settle x site)) := by
  have hcell : ∀ t ≠ x.id, ((Op.replace x.id f.state fin).exec m).cell t = m.cell t :=
    fun t ht => Shared.modify_cell_of_ne m (fun c =>
      { c with state := f.state, finish := some fin, stage := .finished }) ht
  refine .of_settle site (by simp [Op.exec]) ?_ (by simp [Op.exec, hf]) rfl ?_ ?_
  · rintro v rfl
    cases hf
  · intro t ht
    rw [hcell t ht]
    exact ⟨rfl, rfl⟩
  · exact fun t ht _ => hcell t ht

theorem modify_modify (m : Shared V P) (t : TaskId) (f g : Cell V P → Cell V P) :
    (m.modify t f).modify t g = m.modify t (g ∘ f) := by
  simp [Shared.modify]

/-- A body that returns, over the memory `m'` where its value is taken. -/
theorem effect_body (m' : Shared V P) {v : Option V} {r : V} (hr : prog.body x.id v = .ok r)
    (hinvoked : (m'.cell x.id).invoked = (m.cell x.id).invoked) (hsem : m'.sem = m.sem)
    (hkeeps : ∀ t ≠ x.id, (m'.cell t).state = (m.cell t).state ∧
      (m'.cell t).invoked = (m.cell t).invoked)
    (hframe : ∀ t ≠ x.id, x.inner.predecessor ≠ some t → m'.cell t = m.cell t) :
    ∃ ops, body prog x v = .ok ops ∧ (∀ t w, Op.invoke t w ∈ ops → t = x.id) ∧
      Effect x (.returned r) m (m'.execAll (ops ++ settle x .inlineReady)) := by
  refine ⟨[.invoke x.id v, .bodyReturns x.id r, .writeBuffer x.id r, .writeReady x.id],
    by simp [body, hr], ?_, ?_⟩
  · intro t w hm
    simp at hm
    exact hm.1
  have hmem : m'.execAll [.invoke x.id v, .bodyReturns x.id r, .writeBuffer x.id r,
      .writeReady x.id] = m'.modify x.id fun c =>
        { c with invoked := c.invoked ++ [v], finish := some .returned, buffer := some r
                 state := .ready, stage := .finished } := by
    simp [Op.exec, modify_modify, Function.comp_def]
  rw [Shared.execAll_append, hmem]
  refine .of_settle .inlineReady (by simp [Fate.state]) ?_ (by simp [hinvoked, Fate.runs]) hsem
    ?_ ?_
  · rintro w ⟨⟩
    simp
  · intro t ht
    rw [Shared.modify_cell_of_ne _ _ ht]
    exact hkeeps t ht
  · intro t ht hp
    rw [Shared.modify_cell_of_ne _ _ ht]
    exact hframe t ht fun he => hp he r rfl

/-- The value that a future takes. -/
inductive Takes (m : Shared V P) (x : Task) : Option V → Prop where
  | none (hp : x.inner.predecessor = none) : Takes m x none
  | some {p : TaskId} {v : V} (hp : x.inner.predecessor = some p) (hne : p ≠ x.id)
      (hr : (m.cell p).signal.ready = true) (hs : (m.cell p).state = .ready)
      (hb : (m.cell p).buffer = some v) : Takes m x (some v)

/-- The arm of a task that is executed, and whose body returns. -/
theorem effect_execute (e : CallerId) {v : Option V} {r : V} (hv : Takes m x v)
    (hr : prog.body x.id v = .ok r) :
    ∃ ops, awaitSync prog m x = .ok ops ∧ (∀ t w, Op.invoke t w ∈ ops → t = x.id) ∧
      Effect x (.returned r) m
        (m.execAll (.pass x.id :: .newCallerSignal e :: ops ++ settle x .inlineReady)) := by
  have hpass : ∀ t ≠ x.id, ((Op.pass x.id).exec m).cell t = m.cell t :=
    fun t ht => Shared.modify_cell_of_ne m (fun c => { c with stage := .passed }) ht
  cases hv with
  | none hp =>
      obtain ⟨ops, hbody, hinv, heff⟩ := effect_body (m := m)
        (m.execAll [.pass x.id, .newCallerSignal e]) hr (by simp [Op.exec]) rfl
        (fun t ht => by simp [Op.exec, Shared.modify_cell_of_ne _ _ ht])
        (fun t ht _ => hpass t ht)
      exact ⟨ops, by simp [awaitSync, hp, hbody], hinv, heff⟩
  | @some p w hp hne hready hs hb =>
      let taken := m.execAll [.pass x.id, .newCallerSignal e,
        .waitSignal p (.continuation x.id), .takeBuffer p (.continuation x.id) w]
      have hframe : ∀ t ≠ x.id, t ≠ p → taken.cell t = m.cell t := by
        intro t ht htp
        simp [taken, Op.exec, Taker.advance, Shared.modify, ht, htp]
      have hkeeps : ∀ t ≠ x.id, (taken.cell t).state = (m.cell t).state ∧
          (taken.cell t).invoked = (m.cell t).invoked := by
        intro t ht
        by_cases htp : t = p
        · subst htp
          simp [taken, Op.exec, Taker.advance, Shared.modify, ht]
        · rw [hframe t ht htp]
          exact ⟨rfl, rfl⟩
      have hinvoked : (taken.cell x.id).invoked = (m.cell x.id).invoked := by
        simp [taken, Op.exec, Taker.advance, Shared.modify, hne, hne.symm]
      obtain ⟨ops, hbody, hinv, heff⟩ := effect_body taken hr hinvoked rfl hkeeps
        fun t ht htp => hframe t ht fun he => htp (he ▸ hp)
      refine ⟨.waitSignal p (.continuation x.id) :: .takeBuffer p (.continuation x.id) w :: ops,
        by simp [awaitSync, hp, hready, hs, hb, hbody, Except.map], ?_, heff⟩
      intro t v hm
      exact hinv t v (by simpa using hm)

/-- Why a turn settles a task, and how. -/
inductive Cause (prog : Program V P) (m : Shared V P) (x : Task) : Fate V → Prop where
  | panicked {p : TaskId} {q : Payload P} (hp : x.inner.predecessor = some p)
      (hq : (m.cell p).state = .panicked q) : Cause prog m x .panicked
  | cancelled (hp : m.isPanicked x = false) (hc : m.isCancelled x = true) :
      Cause prog m x .cancelled
  | returned {v : Option V} {r : V} (hc : (m.cell x.id).state ≠ .cancelled)
      (he : m.canExecute x = true) (hv : Takes m x v) (hr : prog.body x.id v = .ok r) :
      Cause prog m x (.returned r)

theorem predState_of_none (hp : x.inner.predecessor = none) : m.predState x = .ready := by
  rw [Shared.predState, hp]

theorem predState_of_some (hp : x.inner.predecessor = some p) :
    m.predState x = (m.cell p).state := by
  rw [Shared.predState, hp]

/-- A task that is executed has a predecessor that returned, or none. -/
theorem ready_of_canExecute (hp : m.isPanicked x = false) (hc : m.isCancelled x = false)
    (he : m.canExecute x = true) : m.predState x = .ready := by
  have hpending : m.predState x ≠ .pending :=
    TaskState.bne_pending.mp (Bool.and_eq_true_iff.mp he).2
  have hcancelled : (m.predState x == .cancelled) = false := by
    simp only [Shared.isCancelled, Bool.or_eq_false_iff] at hc
    exact hc.1
  cases hs : m.predState x with
  | pending => exact absurd hs hpending
  | ready => rfl
  | panicked q => simp [Shared.isPanicked, hs, TaskState.isPanicked] at hp
  | cancelled => simp [hs] at hcancelled

/-- A future that ends after its predecessor returned has run its body. -/
theorem awaitSync_takes (hx : x.inner.predecessor ≠ some x.id) (hs : m.predState x = .ready)
    (h : awaitSync prog m x = .ok ops) : ∃ v r, Takes m x v ∧ prog.body x.id v = .ok r := by
  have hbody : ∀ {v ops'}, body prog x v = .ok ops' → ∃ r, prog.body x.id v = .ok r := by
    intro v ops' hb
    cases hr : prog.body x.id v with
    | ok r => exact ⟨r, rfl⟩
    | error q => simp [body, hr] at hb
  unfold awaitSync at h
  split at h
  case h_1 hp =>
    obtain ⟨r, hr⟩ := hbody h
    exact ⟨none, r, .none hp, hr⟩
  case h_2 p hp =>
    rw [predState_of_some hp] at hs
    split at h
    case isFalse => cases h
    case isTrue hready =>
      simp only [hs] at h
      split at h
      case h_2 => cases h
      case h_1 v hb =>
        cases hops : body prog x (some v) with
        | error q => simp [hops, Except.map] at h
        | ok ops' =>
            obtain ⟨r, hr⟩ := hbody hops
            exact ⟨some v, r, .some hp (fun he => hx (he ▸ hp)) hready hs hb, hr⟩

/-- What a turn does to a task that it settles. -/
theorem turn_settled (hx : x.inner.predecessor ≠ some x.id)
    (h : turn prog e m x = .ok (some ops)) : ∃ f, Cause prog m x f ∧
      Effect x f m (m.execAll ops) ∧ Done ops x.id ∧
      ∀ t v, Op.invoke t v ∈ ops → t = x.id ∧ m.isCancelled x = false ∧ m.canExecute x = true := by
  have hturn := turn_cases prog e m x
  rw [h] at hturn
  cases hturn with
  | panicked hp =>
      obtain ⟨q, hq⟩ := TaskState.isPanicked_iff.mp hp
      cases hpred : x.inner.predecessor with
      | none => simp [Shared.predState, hpred] at hq
      | some p =>
          rw [predState_of_some hpred] at hq
          refine ⟨.panicked, .panicked hpred hq, effect_replace rfl _ _, ?_, ?_⟩
          · exact ⟨x.home, .inlinePanicked, by simp [settle]⟩
          · intro t v hm
            simp [settle] at hm
  | cancelled hp hc =>
      refine ⟨.cancelled, .cancelled hp hc, effect_replace rfl _ _, ?_, ?_⟩
      · exact ⟨x.home, .inlineCancelled, by simp [settle]⟩
      · intro t v hm
        simp [settle] at hm
  | executed hp hc he hawait =>
      obtain ⟨v, r, hv, hr⟩ := awaitSync_takes hx (ready_of_canExecute hp hc he) hawait
      obtain ⟨future, hawait', hinv, heff⟩ := effect_execute e hv hr
      obtain rfl := Except.ok.inj (hawait.symm.trans hawait')
      have hself : (m.cell x.id).state ≠ .cancelled := by
        intro hs
        simp [Shared.isCancelled, hs] at hc
      refine ⟨.returned r, .returned hself he hv hr, heff, ?_, fun t v hm => ⟨?_, hc, he⟩⟩
      · exact ⟨x.home, .inlineReady, by simp [settle]⟩
      · exact hinv t v (by simpa [settle] using hm)

/-- A turn ends if what the future takes is there and the body returns. -/
theorem turn_ok (hbody : ∀ v, ∃ r, prog.body x.id v = .ok r)
    (hpred : ∀ p, x.inner.predecessor = some p → (m.cell p).state = .ready →
      p ≠ x.id ∧ (m.cell p).signal.ready = true ∧ (m.cell p).buffer ≠ none) :
    ∃ o, turn prog e m x = .ok o := by
  have hturn := turn_cases prog e m x
  generalize turn prog e m x = res at hturn
  cases hturn with
  | stopped hp hc he hstop =>
      have hready := ready_of_canExecute hp hc he
      have htakes : ∃ v, Takes m x v := by
        cases hx : x.inner.predecessor with
        | none => exact ⟨none, .none hx⟩
        | some p =>
            rw [predState_of_some hx] at hready
            obtain ⟨hne, hflag, hbuffer⟩ := hpred p hx hready
            obtain ⟨v, hv⟩ := Option.ne_none_iff_exists'.mp hbuffer
            exact ⟨some v, .some hx hne hflag hready hv⟩
      obtain ⟨v, hv⟩ := htakes
      obtain ⟨r, hr⟩ := hbody v
      obtain ⟨future, hawait, -, -⟩ := effect_execute e hv hr
      cases hstop.symm.trans hawait
  | _ => exact ⟨_, rfl⟩

/-- A task that is kept is not cancelled and cannot be executed. -/
theorem turn_kept (h : turn prog e m x = .ok none) :
    m.isPanicked x = false ∧ m.isCancelled x = false ∧ m.canExecute x = false := by
  have hturn := turn_cases prog e m x
  rw [h] at hturn
  cases hturn with
  | kept hp hc he => exact ⟨hp, hc, he⟩

end RunAll

end MVSync
