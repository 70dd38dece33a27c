import MVSync.Pool.Deadlock

/-!
# What was submitted is completed

Freedom from deadlock and termination together: when the callers are through with their
submit calls, the threads of the pool complete every submitted task, in whatever order they
take their turns (`Pool.completes`).  The completed task has the outcome that its chain
evaluates to, and its value waits in the buffer.

Two things are asked of user code.  A future that is polled is ready or panics, since
nobody would wake it.  And fewer bodies panic than a thread has slots: a body that panics
keeps its slot for good (`Reachable.leaks`).

When the last `Queue` is dropped, the threads of the pool then exit (`Pool.shuts_down`).
-/

namespace MVSync

open Concurrency Pool

variable {V P : Type} {cfg : Specs} {prog : Program V P} {m : Shared V P} {op : Op V P}
  {x : Task} {t u : TaskId} {w : WorkerId}

/-! ## What only callers do -/

/-- A caller takes a flag, or drops the last `Queue`. -/
def Op.interferes : Op V P → Bool
  | .waitSignal _ .observer | .dropQueue => true
  | _ => false

theorem settleNext_interferes {site : Site} {sp : SettlePc} {sp' : Option SettlePc}
    (h : settleNext x site sp = (sp', op)) : op.interferes = false := by
  unfold settleNext at h
  split at h <;> cases h <;> rfl

theorem dispatcherNext_interferes {p p' : DispatcherPc P}
    (h : dispatcherNext cfg p m = some (p', op)) : op.interferes = false := by
  cases dispatcherNext_step h with
  | settle hs | settled hs => exact settleNext_interferes hs
  | _ => rfl

/-- A worker takes the flags of predecessors only. -/
theorem workerNext_interferes {pends : Bool} {p p' : WorkerPc V P}
    (h : workerNext prog w pends p m = some (p', op)) : op.interferes = false := by
  cases workerNext_step h with
  | more hp | pending hp | err hp | ready hp => cases pollNext_step hp <;> rfl
  | settle hs | settled hs => exact settleNext_interferes hs
  | _ => rfl

/-! ## Bodies that panic -/

/-- `v` is what the body of `t` is called with in a run. -/
def Program.Calls (prog : Program V P) (t : TaskId) : Option V → Prop
  | none => prog.pred t = none
  | some a => ∃ p, prog.pred t = some p ∧ prog.Evals p (.ok a)

/-- The body of the task panics when it is called. -/
def Program.Panics (prog : Program V P) (t : TaskId) : Prop :=
  ∃ v q, prog.Calls t v ∧ prog.body t v = .error q

theorem Life.calls_of_mem (h : Life prog m) {v : Option V} (hv : v ∈ (m.cell t).invoked) :
    prog.Calls t v := by
  obtain ⟨-, -, hin⟩ := h.invoked t v hv
  rcases hin with ⟨hp, rfl⟩ | ⟨p, a, hp, rfl, ha⟩
  · exact hp
  · exact ⟨p, hp, ((h.cell p).resultOk ha).1.1⟩

namespace Pool

variable {s s' : (pool cfg prog).State} {a : (pool cfg prog).Action}

/-- A future panics in the body of its task. -/
theorem Reachable.panics (h : Reachable s) (ht : (s.mem.cell t).stage = .panicking) :
    prog.Panics t := by
  refine h.invariant (I := fun s => (s.mem.cell t).stage = .panicking → prog.Panics t)
    (by simp [poolInit, Shared.init, Cell.init]) ?_ ht
  intro s s' a hr hi hs _ hst
  obtain ⟨o, ho, hm⟩ := mem_of_step hs
  have hp := Reachable.performs hr ho
  have hstage := (Op.cellStep o s.mem t).stage
  rw [← hm, hst] at hstage
  rcases hstage with hsame | hmove | ⟨w, x, rfl, rfl⟩ | ⟨home, site, rfl⟩
  · exact hi hsame.symm
  · cases o
    case waitSignal u k | takeResult u k r | takeBuffer u k v =>
      cases k <;> simp [Op.moveTo] at hmove
    case futurePanics u =>
      obtain ⟨rfl⟩ : u = t := by simpa [Op.moveTo] using hmove
      obtain ⟨v, q, ha, hb⟩ := hp
      have hlife := (Reachable.inv hr).life
      have hcell := hlife.cell t
      rw [CellOk, ha.2] at hcell
      exact ⟨v, q, hlife.calls_of_mem (by simp [hcell.2.1]), hb⟩
    all_goals simp [Op.moveTo] at hmove
  · simp [hm, Op.exec] at hst
  · simp [hm, Op.exec] at hst

/-- The slots that a worker has lost are those of bodies that have panicked. -/
def Leaks.Counted (s : (pool cfg prog).State) (w : WorkerId) : Prop :=
  ∃ l : Finset TaskId, s.mem.leaked w = l.card ∧
    ∀ t ∈ l, (s.mem.cell t).stage.decided = true ∧ prog.Panics t

theorem Leaks.Counted.step (h : Leaks.Counted s w) (hr : Reachable s) (hc : ¬SomeCancel s.mem)
    (hs : s.step a = some s') : Leaks.Counted s' w := by
  obtain ⟨l, hcard, hl⟩ := h
  obtain ⟨o, ho, hm⟩ := mem_of_step hs
  have hp := hr.performs ho
  have hkept : ∀ t ∈ l, (s'.mem.cell t).stage.decided = true ∧ prog.Panics t := fun t ht =>
    ⟨((hr.grows hs).cell t).decided (hl t ht).1, (hl t ht).2⟩
  rcases Op.leaked_cases o s.mem w with hsame | ⟨t, r, rfl⟩ | ⟨t, rfl⟩
  · exact ⟨l, by rw [hm, hsame, hcard], hkept⟩
  · have hstage : (s.mem.cell t).stage = .panicking := hp.2.2
    have hnew : t ∉ l := by
      intro ht
      simpa [hstage, Stage.decided] using (hl t ht).1
    refine ⟨insert t l, ?_, Finset.forall_mem_insert _ _ _ |>.mpr ⟨⟨?_, hr.panics hstage⟩, hkept⟩⟩
    · simp [hm, Op.exec, Finset.card_insert_of_notMem hnew, hcard]
    · simp [hm, Op.exec, Stage.decided]
  · exact absurd (hr.inv.life.cancelled t hp.2.2) hc

/-- The tasks belong to the queue, each has a thread that it may be sent to, and fewer
bodies panic than a thread has slots. -/
structure Roomy (cfg : Specs) (prog : Program V P) : Prop where
  threads : 0 < cfg.threadCount
  home : ∀ t, prog.home t = true
  placeable : prog.Placeable cfg
  slots : ∃ l : Finset TaskId, (∀ t, prog.Panics t → t ∈ l) ∧ l.card < cfg.workersPerThread.toNat

theorem Roomy.threads_ne (h : Roomy cfg prog) : cfg.threadCount ≠ 0 :=
  fun he => absurd h.threads (by simp [he])

/-! ## Prompt runs -/

/-- The runs in which everybody behaves, and no user code is pending. -/
abbrev PromptRun (s : (pool cfg prog).State) : Prop :=
  System.ReachVia (fun s a _ => Orderly s a ∧ ∀ w, a ≠ work w true) (poolInit cfg prog) s

theorem PromptRun.orderly (h : PromptRun s) : OrderlyRun s := h.mono fun _ _ _ ha => ha.1

theorem PromptRun.no_cancel (h : PromptRun s) : ¬SomeCancel s.mem :=
  h.invariant (I := fun s => ¬SomeCancel s.mem) noCancel_init
    fun _ _ hi hs ha => noCancel_step hi ha.1.cancel hs

theorem Prompt.interferes (ha : Prompt a) {o : Op V P} (ho : Performs s a o) :
    o.interferes = false := by
  obtain ⟨q, hn⟩ := ho
  obtain ⟨i, c⟩ := a
  cases i with
  | dispatcher => exact dispatcherNext_interferes hn
  | worker w => exact workerNext_interferes hn
  | caller e => exact ha.1.elim

/-- What the threads of the pool do by themselves is orderly. -/
theorem Prompt.orderly (ha : Prompt a) : Orderly s a where
  cancel := by
    obtain ⟨i, c⟩ := a
    cases i with
    | caller e => exact ha.1.elim
    | _ => rfl
  label := by
    obtain ⟨i, c⟩ := a
    cases i with
    | caller e => exact ha.1.elim
    | _ => rfl
  flag := by
    rintro p - ⟨q, hn⟩
    simpa [Op.interferes] using ha.interferes ⟨q, hn⟩

theorem workerNext_unsuspended {p p' : WorkerPc V P} (hp : ∀ f ∈ p.futures, f.suspended = none)
    (h : workerNext prog w false p m = some (p', op)) : ∀ f ∈ p'.futures, f.suspended = none := by
  cases workerNext_step h with
  | pending hq =>
      cases pollNext_step hq with
      | pending hno => cases hno
  | _ =>
      simp only [WorkerPc.futures, List.forall_mem_append, List.forall_mem_cons] at hp ⊢
      simp_all

/-- A worker that sleeps keeps nothing. -/
theorem PromptRun.wait_eq_nil (h : PromptRun s) {fs : List (Fut V)}
    (hw : Pool.worker s w = .wait fs) : fs = [] := by
  have hsus : ∀ f ∈ (Pool.worker s w).futures, f.suspended = none := by
    refine h.invariant (I := fun s => ∀ f ∈ (Pool.worker s w).futures, f.suspended = none)
      (List.forall_mem_nil _) ?_
    intro s s' a _ hi hs hok
    rcases step_cases hs with ⟨q, o, rfl, -, rfl⟩ | ⟨v, pends, q, o, rfl, hn, rfl⟩ |
      ⟨e, c, q, o, rfl, -, rfl⟩
    · rwa [worker_move_dispatcher]
    · by_cases hv : w = v
      · subst hv
        cases pends with
        | true => exact absurd rfl (hok.2 w)
        | false =>
            rw [worker_move]
            exact workerNext_unsuspended hi hn
      · rwa [worker_move_of_ne s o hv]
    · rwa [worker_move_caller]
  have hparks := Reachable.parks h.reach w
  rw [hw] at hsus hparks
  exact List.eq_nil_iff_forall_not_mem.mpr fun f hf => (hparks f hf).polled (hsus f hf)

theorem PromptRun.counted (h : PromptRun s) (w : WorkerId) : Leaks.Counted s w :=
  h.invariant (I := fun s => Leaks.Counted s w) ⟨∅, rfl, by simp⟩
    fun _ hr hi hs _ => hi.step hr.reach (PromptRun.no_cancel hr) hs

/-- A slot is left on every thread. -/
theorem PromptRun.leaked_lt (h : PromptRun s) (hroom : Roomy cfg prog) (w : WorkerId) :
    s.mem.leaked w < cfg.workersPerThread.toNat := by
  obtain ⟨l, hl, hcard⟩ := hroom.slots
  obtain ⟨k, hk, hsub⟩ := h.counted w
  have hle : k.card ≤ l.card := Finset.card_le_card fun t ht => hl t (hsub t ht).2
  omega

/-! ## While the threads of the pool work -/

theorem Prompt.tid_ne (ha : Prompt a) (e : CallerId) : a.tid ≠ .caller e := by
  intro he
  have hserves := ha.1
  rw [Serves, he] at hserves
  exact hserves

/-- The threads of the pool take no task from the user, and give none back. -/
theorem Prompt.owner_iff (ha : Prompt a) (hr : Reachable s) (hs : s.step a = some s') :
    (s'.mem.cell t).owner = .user ↔ (s.mem.cell t).owner = .user := by
  obtain ⟨o, ho, hm⟩ := mem_of_step hs
  have hp := hr.performs ho
  rcases Op.owner_cases hp hr.inv.places t with hsame | hcar
  · rw [hm, hsame]
  · rw [← hm] at hcar
    generalize (s.mem.cell t).owner = o₁, (s'.mem.cell t).owner = o₂ at hcar ⊢
    cases hcar with
    | beginSubmit e | beginRun e => exact absurd hp.1 (ha.tid_ne e)
    | _ => simp

/-- What the threads of the pool keep from a state `s₀` on. -/
structure Underway (s₀ s : (pool cfg prog).State) : Prop where
  run : PromptRun s
  caller : ∀ e sent xs, caller s e ≠ .sending sent xs
  owner : ∀ t, (s.mem.cell t).owner = .user ↔ (s₀.mem.cell t).owner = .user
  queueAlive : s.mem.queueAlive = s₀.mem.queueAlive

theorem Underway.moves {s₀ : (pool cfg prog).State} (h : Underway s₀ s) (hm : s.Moves Prompt s') :
    Underway s₀ s' := by
  obtain ⟨a, ha, hs⟩ := hm
  refine ⟨.step a h.run hs ⟨ha.orderly, ha.2⟩, fun e sent xs he => ?_, fun t => ?_, ?_⟩
  · refine h.caller e sent xs ?_
    obtain ⟨q, o, -, rfl⟩ := System.State.step_cases hs
    exact (System.State.move_pc_of_ne s q o (ha.tid_ne e).symm).symm.trans he
  · exact (ha.owner_iff h.run.reach hs).trans (h.owner t)
  · obtain ⟨o, ho, hmem⟩ := mem_of_step hs
    have hno : o ≠ .dropQueue := by
      rintro rfl
      simpa [Op.interferes] using ha.interferes ho
    rw [hmem, Op.queueAlive_eq hno, h.queueAlive]

/-- What holds where the threads of the pool are blocked is inevitable. -/
theorem PromptRun.inevitable {s₀ : (pool cfg prog).State} (h : PromptRun s₀)
    (hcall : ∀ e sent xs, Pool.caller s₀ e ≠ .sending sent xs) {Q : (pool cfg prog).State → Prop}
    (hQ : ∀ s, Underway s₀ s → s.Halted Prompt → Q s) : System.Inevitable Prompt Q s₀ :=
  (ranking (T := Prompt) (fun _ ha => ha.1) (I := Underway s₀) fun hi hm =>
    hi.moves hm).inevitable hQ ⟨h, hcall, fun _ => .rfl, rfl⟩

/-! ## Completion -/

/-- The task is settled, and shows what its chain evaluates to. -/
structure Completed (s : (pool cfg prog).State) (t : TaskId) : Prop where
  settled : Settled s t
  outcome : ∃ o, prog.Evals t o ∧ (s.mem.cell t).Shows o

theorem Reachable.completed (h : Reachable s) (hc : ¬SomeCancel s.mem) (hs : Settled s t) :
    Completed s t := by
  obtain ⟨site, hsite, -⟩ := hs.site
  exact ⟨hs, h.inv.life.shows hc ((h.inv.life.cell t).stage_decided (by simp [hsite]))⟩

/-- Where the threads of the pool are blocked, what is grounded is completed. -/
theorem Underway.completed {s₀ : (pool cfg prog).State} (h : Underway s₀ s)
    (hroom : Roomy cfg prog) (hh : s.Halted Prompt) (ht : Grounded s₀ t) : Completed s t := by
  have hleak : ∀ w ∈ cfg.threads, s.mem.leaked w < cfg.workersPerThread.toNat :=
    fun w _ => h.run.leaked_lt hroom w
  have hrest : AtRest s := ⟨hh, h.caller⟩
  have hg : Grounded s t := ht.mono fun t => mt (h.owner t).mp
  rcases hrest.settled_or_held hroom.threads_ne hroom.home hroom.placeable h.run.orderly hleak
      hg with
    hs | ⟨u, -, ⟨⟨w, -, fs, hw, f, hf, -⟩, -, -⟩ | ⟨xs, x, -, -, -, helig, hfull⟩⟩
  · exact Reachable.completed h.run.reach h.run.no_cancel hs
  · simp [h.run.wait_eq_nil hw] at hf
  · obtain ⟨w, hw⟩ := List.exists_mem_of_ne_nil _ helig
    obtain ⟨fs, hfs, hlen⟩ := hfull w hw
    have hlt := hleak w (Specs.mem_threads_of_eligible hw)
    simp [h.run.wait_eq_nil hfs] at hlen
    omega

/-- Once the callers are through with their submit calls, the threads of the pool complete
every task whose dependencies were submitted, whichever of them moves next. -/
theorem completes {s₀ : (pool cfg prog).State} (hroom : Roomy cfg prog) (h : PromptRun s₀)
    (hcall : ∀ e sent xs, caller s₀ e ≠ .sending sent xs) :
    System.Inevitable Prompt (fun s => ∀ t, Grounded s₀ t → Completed s t) s₀ :=
  h.inevitable hcall fun _ hi hh _ ht => hi.completed hroom hh ht

/-! ## The final state -/

theorem PromptRun.plain (h : PromptRun s) (hc : cfg.threadCount ≠ 0) : PlainRun s :=
  .of_threads hc (h.mono fun _ _ _ ha => ha.1.cancel)

theorem Underway.submissions_eq {s₀ : (pool cfg prog).State} (h : Underway s₀ s) :
    submissions s = submissions s₀ := by
  ext t
  exact not_congr (h.owner t)

/-- Where the threads of the pool are blocked, no task can fire. -/
theorem Underway.nothing_fires {s₀ : (pool cfg prog).State} (h : Underway s₀ s)
    (hroom : Roomy cfg prog) (hh : s.Halted Prompt) : prog.graph.Final (dataflow s) := by
  intro t he
  have hsound := (h.run.plain hroom.threads_ne).graph_reach.sound
  have hg : Grounded s t := hsound.supplied_of_enabled he
  rw [Grounded, h.submissions_eq] at hg
  obtain ⟨o, -, ho⟩ := (h.completed hroom hh hg).outcome
  exact absurd (he.waiting.symm.trans ho.outcome) nofun

/-- The pool comes to the final state of the graph, whichever thread moves next: no task can
fire any more, exactly the tasks whose dependencies were submitted have an outcome, and it is
the value of the task. -/
theorem determined {s₀ : (pool cfg prog).State} (hroom : Roomy cfg prog) (h : PromptRun s₀)
    (hcall : ∀ e sent xs, caller s₀ e ≠ .sending sent xs) :
    System.Inevitable Prompt (fun s => prog.graph.Final (dataflow s) ∧
      ∀ t a, (s.mem.cell t).outcome = some a ↔ Grounded s₀ t ∧ prog.graph.Value t a) s₀ := by
  refine h.inevitable hcall fun s hi hh => ⟨hi.nothing_fires hroom hh, fun t a => ?_⟩
  have hiff := (hi.run.plain hroom.threads_ne).graph_reach.final_iff (hi.nothing_fires hroom hh)
    (t := t) (a := a)
  rwa [show (dataflow s).submitted = submissions s₀ from hi.submissions_eq] at hiff

/-! ## Shutdown -/

/-- The dispatcher has no settled task. -/
theorem Reachable.unsettled_of_mem (h : Reachable s) {xs : List Task}
    (hd : Pool.dispatcher s = .wait xs) (hx : x ∈ xs) : ¬Settled s x.id := by
  intro hs
  have hloc := h.dispatcher
  rw [hd] at hloc
  have hstage := hloc.tasks.stage_of_mem (List.mem_map.mpr ⟨x, hx, rfl⟩)
  have hcell := h.inv.life.cell x.id
  rw [CellOk, hstage] at hcell
  obtain ⟨site, hsite, -⟩ := hs.site
  simp [hcell.1.wakes] at hsite

/-- Blocked after its last task was settled and the last `Queue` dropped, the dispatcher has
left its loop. -/
theorem AtRest.exited (h : AtRest s) (hrun : PromptRun s) (hq : s.mem.queueAlive = false)
    (hs : ∀ t, (s.mem.cell t).owner ≠ .user → Settled s t) : Pool.dispatcher s = .exited := by
  have hr : Reachable s := hrun.reach
  have hpan := dispatcher_ne_panicked (hrun.orderly.mono fun _ _ _ ha => ha.cancel)
  rcases dispatcherNext_none h.dispatcher with ⟨-, -, hal⟩ | ⟨xs, hd, -⟩ | hover
  · simp [hq] at hal
  · obtain ⟨x, hx⟩ := List.exists_mem_of_ne_nil _ (hr.wait_ne_nil hd)
    have hloc := hr.dispatcher
    rw [hd] at hloc
    have hown := hloc.tasks.owner_of_mem (List.mem_map.mpr ⟨x, hx, rfl⟩)
    exact absurd (hs x.id (by simp [hown])) (hr.unsettled_of_mem hd hx)
  · cases hd : Pool.dispatcher s with
    | exited => rfl
    | panicked => exact absurd hd hpan
    | _ => rw [hd] at hover; cases hover

/-- A worker leaves its loop after the dispatcher. -/
theorem AtRest.worker_exited (h : AtRest s) (hc : cfg.threadCount ≠ 0) (hrun : PromptRun s)
    (hst : Steady s) (hd : Pool.dispatcher s = .exited) (hw : w ∈ cfg.threads) :
    Pool.worker s w = .exited := by
  have hr : Reachable s := hrun.reach
  rcases h.worker_cases hc hr hst hw with ⟨hp, -⟩ | ⟨fs, hp, -⟩ | hp
  · have hgone := (hr.over.dispatcher (by rw [hd]; rfl)).1
    rcases workerNext_none (h.worker hw) with ⟨-, -, hal⟩ | ⟨fs, he, -⟩ | he | ⟨x, q, k, l, he, -⟩
    · simp [hgone] at hal
    all_goals simp [hp] at he
  · exact absurd (hrun.wait_eq_nil hp) (hr.worker_wait_ne_nil hp)
  · exact hp

/-- After the last `Queue` is dropped, in every fair schedule the threads of the pool
complete what was submitted, and exit. -/
theorem shuts_down {s₀ : (pool cfg prog).State} (hroom : Roomy cfg prog) (h : PromptRun s₀)
    (hcall : ∀ e sent xs, caller s₀ e ≠ .sending sent xs)
    (hg : ∀ t, (s₀.mem.cell t).owner ≠ .user → Grounded s₀ t) (hq : s₀.mem.queueAlive = false)
    {σ : Nat → (pool cfg prog).Action} (hσ : System.Fair Prompt σ) :
    ∃ n s, s₀.after (System.firsts σ n) = s ∧ dispatcher s = .exited ∧
      (∀ w ∈ cfg.threads, worker s w = .exited) ∧
        ∀ t, (s₀.mem.cell t).owner ≠ .user → Completed s t := by
  have hin : System.Inevitable Prompt (fun s => dispatcher s = .exited ∧
      (∀ w ∈ cfg.threads, worker s w = .exited) ∧
        ∀ t, (s₀.mem.cell t).owner ≠ .user → Completed s t) s₀ := by
    refine h.inevitable hcall fun s hi hh => ?_
    have hrest : AtRest s := ⟨hh, hi.caller⟩
    have hdone : ∀ t, (s₀.mem.cell t).owner ≠ .user → Completed s t :=
      fun t ht => hi.completed hroom hh (hg t ht)
    have hd := hrest.exited hi.run (hi.queueAlive.trans hq)
      fun t ht => (hdone t (mt (hi.owner t).mpr ht)).settled
    have hst := hi.run.orderly.steady hroom.threads_ne hroom.home hroom.placeable
    exact ⟨hd, fun w hw => hrest.worker_exited hroom.threads_ne hi.run hst hd hw, hdone⟩
  obtain ⟨n, hn⟩ := hin.of_fair hσ
  exact ⟨n, _, rfl, hn⟩

/-- The step behaves, and no user code is pending in it. -/
def prompts (s : (pool cfg prog).State) (a : (pool cfg prog).Action) : Bool :=
  behaves s a &&
    match a with
    | ⟨.worker _, true⟩ => false
    | _ => true

theorem PromptRun.of_prompts {as : List (pool cfg prog).Action}
    (h : (poolInit cfg prog).along prompts as = true) :
    PromptRun ((poolInit cfg prog).after as) := by
  refine .along .init (fun s a s' _ ha => ?_) as h
  obtain ⟨hb, hp⟩ := Bool.and_eq_true_iff.mp ha
  refine ⟨orderly_of_behaves hb, ?_⟩
  rintro w rfl
  cases hp

end Pool

/-! ## A chain to the end -/

set_option maxRecDepth 2000

/-- The chain of two functions is submitted, and the last `Queue` dropped. -/
def leftSchedule : List (pool Specs.one successorChain).Action :=
  submits 0 [0, 1] ++ [call 0 .dropQueue]

def leftRun : (pool Specs.one successorChain).State := (poolInit _ _).after leftSchedule

theorem leftRun_prompt : PromptRun leftRun := .of_prompts (by decide)

theorem leftRun_grounded (t : TaskId) (ht : (leftRun.mem.cell t).owner ≠ .user) :
    Grounded leftRun t := grounded_chain (by decide) ht

theorem leftRun_caller (e : CallerId) (sent : Bool) (xs : List Task) :
    caller leftRun e ≠ .sending sent xs := by
  rw [show caller leftRun e = .idle from caller_after (by decide) (by decide) e]
  exact nofun

theorem successorChain_roomy : Roomy Specs.one successorChain where
  threads := by decide
  home _ := rfl
  placeable := successorChain_placeable
  slots := by
    refine ⟨∅, ?_, by decide⟩
    rintro t ⟨v, q, -, hb⟩
    cases hb

/-- The threads of the pool in turn. -/
def inTurn : Nat → (pool Specs.one successorChain).Action :=
  System.cycle [dispatch, work 0 false] (Nat.zero_lt_succ 1)

theorem inTurn_fair : System.Fair Prompt inTurn := by
  refine .cycle _ ?_
  rintro ⟨i, c⟩
  cases i with
  | dispatcher =>
      refine ⟨fun _ => List.mem_cons_self, fun _ => ⟨trivial, fun w h => ?_⟩⟩
      cases congrArg System.Action.tid h
  | worker w =>
      constructor
      · rintro ⟨hw, hp⟩
        obtain rfl : w = 0 := by simpa [Serves, Tid.Serves, Specs.threads, Specs.one] using hw
        cases c with
        | false => exact List.mem_cons_of_mem _ List.mem_cons_self
        | true => exact absurd rfl (hp 0)
      · intro ha
        rcases List.mem_pair.mp ha with ha | ha
        · cases congrArg System.Action.tid ha
        · rw [ha]
          refine ⟨List.mem_cons_self, fun v h => ?_⟩
          cases h
  | caller e =>
      refine ⟨fun ha => ha.1.elim, fun ha => ?_⟩
      rcases List.mem_pair.mp ha with ha | ha <;> cases congrArg System.Action.tid ha

/-- Both functions are completed, whoever moves next. -/
theorem Pool.completes_leftRun :
    System.Inevitable Prompt (fun s => ∀ t, Grounded leftRun t → Completed s t) leftRun :=
  completes successorChain_roomy leftRun_prompt leftRun_caller

/-- The pool comes to the final state of the chain. -/
theorem Pool.determined_leftRun :
    System.Inevitable Prompt (fun s => successorChain.graph.Final (dataflow s) ∧
      ∀ t a, (s.mem.cell t).outcome = some a ↔
        Grounded leftRun t ∧ successorChain.graph.Value t a) leftRun :=
  determined successorChain_roomy leftRun_prompt leftRun_caller

/-- Both functions are completed when the threads take their turns, and the pool exits. -/
theorem Pool.shuts_down_leftRun :
    ∃ n s, leftRun.after (System.firsts inTurn n) = s ∧ dispatcher s = .exited ∧
      (∀ w ∈ Specs.one.threads, worker s w = .exited) ∧
        ∀ t, (leftRun.mem.cell t).owner ≠ .user → Completed s t :=
  shuts_down successorChain_roomy leftRun_prompt leftRun_caller leftRun_grounded (by decide)
    inTurn_fair

end MVSync
