import MVSync.Pool.Sequence

/-!
# Inline execution and the workers

A pool without threads does as one with threads when its submit calls come in time
(`Shared.Due`), no body panics and no task is skipped out of turn
(`Pool.Contained`).  Then nothing is lost, and without `cancel` the tasks come to
the outcomes that they have with threads (`Pool.panics_contained`).

Without `cancel` every run is simulated by the graph of the program, also one that
loses tasks.  A task that is lost never fires, and the pool stops short of the end
exactly if one of them was supplied (`Pool.Sequence.outcome_eq_iff`).
-/

namespace MVSync

open Concurrency Pool

variable {V P : Type} {cfg cfg' : Specs} {prog : Program V P} {m m' : Shared V P} {t u : TaskId}

/-! ## One program in two pools -/

/-- Two runs of a program, in any pools, agree on how a task finished, unless it
was cancelled. -/
theorem Life.finish_unique (h : Life prog m) (h' : Life prog m') {f f' : Finish}
    (hf : (m.cell t).finish = some f) (hf' : (m'.cell t).finish = some f')
    (hne : f ≠ .cancelled) (hne' : f' ≠ .cancelled) : f = f' := by
  have evals : ∀ {m : Shared V P} {f : Finish}, Life prog m → (m.cell t).finish = some f →
      f ≠ .cancelled → f = .returned ∧ (∃ r, prog.Evals t (.ok r)) ∨
        f = .panicked ∧ ∃ q, prog.Evals t (.error q) := by
    intro m f h hf hne
    cases f with
    | returned => exact .inl ⟨rfl, (h.cell t).evals_of_returned hf⟩
    | panicked => exact .inr ⟨rfl, (h.cell t).evals_of_panicked hf⟩
    | cancelled => exact absurd rfl hne
    | silent => exact absurd hf (h.cell t).finish_ne_silent
  rcases evals h hf hne with ⟨rfl, r, hr⟩ | ⟨rfl, q, hq⟩ <;>
    rcases evals h' hf' hne' with ⟨rfl, r', hr'⟩ | ⟨rfl, q', hq'⟩
  · rfl
  · cases hr.unique hq'
  · cases hq.unique hr'
  · rfl

/-- They agree on what a wait gets. -/
theorem Life.result_agrees (h : Life prog m) (h' : Life prog m') {r r' : TaskResult V P}
    (hr : (m.cell t).result = some r) (hr' : (m'.cell t).result = some r')
    (hne : r ≠ .cancelled) (hne' : r' ≠ .cancelled) : r = r' := by
  obtain ⟨hok, -⟩ := (h.cell t).resultOk hr
  obtain ⟨hok', -⟩ := (h'.cell t).resultOk hr'
  cases r <;> cases r' <;> first | exact absurd rfl hne | exact absurd rfl hne' | skip
  case returned.returned v v' => rw [Except.ok.inj (hok.1.unique hok'.1)]
  case returned.panicked v q =>
    have := h.finish_unique h' hok.2 hok'.2 (by simp) (by simp)
    cases this
  case panicked.returned q v =>
    have := h.finish_unique h' hok.2 hok'.2 (by simp) (by simp)
    cases this
  case panicked.panicked q q' => rw [hok.1, hok'.1]

/-- Without `cancel`, a task whose outcome is not written is `Pending`. -/
theorem Life.state_eq_pending (h : Life prog m) (hc : ¬SomeCancel m)
    (hd : (m.cell t).stage.decided = false) : (m.cell t).state = .pending := by
  by_contra hp
  have hdec := (h.cell t).decided_of_state hp (h.state_ne_cancelled hc t)
  simp [hd] at hdec

/-- Without `cancel`, a pool that knows no panics shows the same states as any other
with the same outcomes. -/
theorem Life.state_eq (h : Life prog m) (h' : Life prog m') (hc : ¬SomeCancel m)
    (hc' : ¬SomeCancel m') (hm : m.Calm) (ho : (m.cell t).outcome = (m'.cell t).outcome) :
    (m.cell t).state = (m'.cell t).state := by
  cases hd : (m.cell t).stage.decided with
  | false =>
      have hd' : (m'.cell t).stage.decided = false := by
        by_contra hd'
        obtain ⟨o, -, ho'⟩ := h'.outcome_eq_some hc' (by simpa using hd')
        simp [← ho, h.outcome_eq_none hc hd] at ho'
      rw [h.state_eq_pending hc hd, h'.state_eq_pending hc' hd']
  | true =>
      obtain ⟨o, -, hs⟩ := h.shows hc hd
      have hd' : (m'.cell t).stage.decided = true := h'.decided_of_outcome hc' (by
        simp [← ho, hs.outcome])
      obtain ⟨o', -, hs'⟩ := h'.shows hc' hd'
      have hoo : o.toOption = o'.toOption := by simpa [hs.outcome, hs'.outcome] using ho
      cases o with
      | error q =>
          obtain ⟨⟨r, hr⟩, -⟩ := hs
          exact absurd hr (hm t r)
      | ok v =>
          cases o' with
          | error q => cases hoo
          | ok v' => rw [hs.1, hs'.1]

namespace Pool

variable {s s' : (pool cfg prog).State} {a : (pool cfg prog).Action}

/-- The runs without `cancel`. -/
abbrev Uncancelled (s : (pool cfg prog).State) : Prop :=
  System.ReachVia (fun _ a _ => cancels a = false) (poolInit cfg prog) s

/-- Without threads, a task is only skipped for a `cancel`. -/
theorem not_outOfTurn_of_noCancel (hc : cfg.threadCount = 0) (h : Reachable s)
    (hno : ¬SomeCancel s.mem) (hs : s.step a = some s') : ¬OutOfTurn s a := by
  rintro ⟨t, st, f, ho, -⟩
  have hskip := (h.performs ho).2
  unfold Skips at hskip
  split at hskip
  · obtain ⟨o, ho', hmem⟩ := mem_of_step hs
    obtain rfl := ho.unique ho'
    exact (h.threadless hc).calm_step h hs t _ (by simp [hmem, Op.exec]; rfl)
  · exact hno hskip
  · exact hskip

theorem Uncancelled.plain (h : Uncancelled s) : PlainRun s := by
  by_cases hc : cfg.threadCount = 0
  · induction h with
    | init => exact .init
    | step a hr hs ha ih =>
        exact .step a ih hs ⟨ha, not_outOfTurn_of_noCancel hc hr.reach ih.no_cancel hs⟩
  · exact .of_threads hc h

/-- The outcome of a task that is lost is not written. -/
theorem Abandoned.decided_eq_false (hi : Abandoned s t) (h : Reachable s) :
    (s.mem.cell t).stage.decided = false := by
  have hset : (s.mem.cell t).stage.settling = false := by
    rcases hi.2 with hg | ⟨e, q, he, hq⟩
    · by_contra hset
      obtain ⟨i, hi⟩ := h.inv.places.settling t (by simpa using hset)
      simp [hg] at hi
    · simpa using (h.caller e).unwind q hq t he
  cases hst : (s.mem.cell t).stage with
  | finished | woken => simp [hst, Stage.settling] at hset
  | settled site =>
      have hcell := h.inv.life.cell t
      rw [CellOk, hst] at hcell
      simp [hi.1] at hcell
  | _ => rfl

/-- A task that is enabled in the graph is with a caller, or lost. -/
theorem PlainRun.held_of_enabled (hc : cfg.threadCount = 0) (h : PlainRun s)
    (he : prog.graph.Enabled (dataflow s) t) :
    (∃ e, (s.mem.cell t).owner = .thread (.caller e)) ∨ Abandoned s t := by
  have hr : Reachable s := h.reach
  rcases (hr.threadless hc).owner t with hu | hg | hcaller
  · exact absurd hu he.submitted
  · refine .inr ⟨?_, .inl hg⟩
    by_contra hw
    obtain ⟨o, -, ho⟩ := hr.inv.life.outcome_eq_some h.no_cancel
      ((hr.inv.life.cell t).stage_decided hw)
    have hnone : (s.mem.cell t).outcome = none := he.waiting
    simp [ho] at hnone
  · exact .inl hcaller

/-- When the calls are over, no task can fire if none that was supplied is lost. -/
theorem PlainRun.final_of_unoccupied (hc : cfg.threadCount = 0) (h : PlainRun s)
    (hu : Unoccupied s)
    (hall : ∀ t, Abandoned s t → ¬prog.graph.Supplied (submissions s) t) :
    prog.graph.Final (dataflow s) := by
  intro t he
  rcases h.held_of_enabled hc he with ⟨e, ho⟩ | hlost
  · exact hu e t ho
  · exact hall t hlost (h.graph_reach.sound.supplied_of_enabled he)

/-- When the calls are over, the tasks have the outcomes that they have at the end of
any run in which the same tasks were submitted, exactly if none that was supplied is
lost. -/
theorem PlainRun.outcome_eq_iff {s' : (pool cfg' prog).State} (hc : cfg.threadCount = 0)
    (h : PlainRun s) (h' : PlainRun s') (hu : Unoccupied s) (hs : submissions s = submissions s')
    (hf : prog.graph.Final (dataflow s')) :
    (∀ t, (s.mem.cell t).outcome = (s'.mem.cell t).outcome) ↔
      ∀ t, Abandoned s t → ¬prog.graph.Supplied (submissions s) t := by
  constructor
  · intro hall t hlost hsup
    have hr : Reachable s := h.reach
    have hnone := hr.inv.life.outcome_eq_none h.no_cancel (hlost.decided_eq_false hr)
    have hsup' : prog.graph.Supplied (submissions s') t := hs ▸ hsup
    exact hf.outcome_ne_none hsup' ((hall t).symm.trans hnone)
  · intro hall t
    have heq : dataflow s = dataflow s' :=
      h.graph_reach.final_unique h'.graph_reach (h.final_of_unoccupied hc hu hall) hf hs
    exact congrFun (congrArg Dataflow.State.outcome heq) t

/-- What inline execution needs to do as the workers do: the submit calls come in
time, no body panics, and no task is skipped out of turn. -/
structure Contained (s : (pool cfg prog).State) (a : (pool cfg prog).Action) : Prop where
  timely : Timely s a
  turn : ¬OutOfTurn s a

/-- Without threads, every run of contained steps loses nothing and settles in turn,
and what finishes has the outcome that it has in any other pool.  Without `cancel`,
when no caller has a task any more, every task is in the state and has the outcome
that it has at the end of any run, with threads or without, in which the same tasks
were submitted.

For calls one after the other the condition is exact: the outcomes are the same
exactly if `run` resolves every task that was supplied.  A body that panics in any
call is one whose task is lost: it is never settled, it never becomes `Panicked`, and
no wait on it gets a result. -/
theorem panics_contained (hc : cfg.threadCount = 0) :
    (∀ s : (pool cfg prog).State,
      System.ReachVia (fun s a _ => Contained s a) (poolInit cfg prog) s →
        (∀ t, Accounted s t) ∧ SettlesInTurn s ∧
          ∀ (s' : (pool cfg' prog).State) t, Reachable s' →
            (∀ f f', (s.mem.cell t).finish = some f → (s'.mem.cell t).finish = some f' →
              f ≠ .cancelled → f' ≠ .cancelled → f = f') ∧
            ∀ r r', (s.mem.cell t).result = some r → (s'.mem.cell t).result = some r' →
              r ≠ .cancelled → r' ≠ .cancelled → r = r') ∧
      (∀ s : (pool cfg prog).State,
        System.ReachVia (fun s a _ => Timely s a ∧ cancels a = false) (poolInit cfg prog) s →
          (∀ t, prog.graph.Enabled (dataflow s) t →
            ∃ e, (s.mem.cell t).owner = .thread (.caller e)) ∧
          ∀ s' : (pool cfg' prog).State, Uncancelled s' → Unoccupied s →
            submissions s = submissions s' → prog.graph.Final (dataflow s') →
              ∀ t, (s.mem.cell t).state = (s'.mem.cell t).state ∧
                (s.mem.cell t).outcome = (s'.mem.cell t).outcome) ∧
      (∀ calls (s : (pool cfg prog).State) (s' : (pool cfg' prog).State),
        Sequence cfg prog calls s → Uncancelled s → Uncancelled s' →
          submissions s = submissions s' → prog.graph.Final (dataflow s') →
            ((∀ t, (s.mem.cell t).outcome = (s'.mem.cell t).outcome) ↔
              ∀ b ∈ calls, b.1.Resolves prog (prog.task b.2) ∨
                ¬prog.graph.Supplied (submissions s) b.2)) ∧
      ∀ (s s' : (pool cfg prog).State) a t, Reachable s → Performs s a (.futurePanics t) →
        s.step a = some s' → ∀ s'', System.Reach s' s'' → ¬Settled s'' t ∧
          (s''.mem.cell t).result = none ∧ ∀ q, (s''.mem.cell t).state ≠ .panicked q := by
  refine ⟨fun s h => ?_, fun s h => ?_, fun calls s s' h hn hn' hs hf => ?_,
    fun s s' a t h ho hs s'' hr => ?_⟩
  · have hr : Reachable s := h.reach
    have hturn : Turned s := h.invariant (I := Turned) (fun t ht => absurd rfl ht)
      fun a hr hi hs ha => hi.step hr.reach ha.turn hs
    refine ⟨fun t => (accounted_iff hc hr).mpr ?_, hturn.settlesInTurn hr, fun s' t h' => ?_⟩
    · exact not_abandoned_of_timely hc (h.mono fun _ _ _ ha => ha.timely)
    · exact ⟨fun f f' => hr.inv.life.finish_unique h'.inv.life,
        fun r r' => hr.inv.life.result_agrees h'.inv.life⟩
  · have hp : PlainRun s := Uncancelled.plain (h.mono fun _ _ _ ha => ha.2)
    have hnone : ∀ t, ¬Abandoned s t :=
      fun t => not_abandoned_of_timely hc (h.mono fun _ _ _ ha => ha.1)
    refine ⟨fun t he => (hp.held_of_enabled hc he).resolve_right (hnone t),
      fun s' h' hu hs hf t => ?_⟩
    have hp' : PlainRun s' := h'.plain
    have hr : Reachable s := h.reach
    have hr' : Reachable s' := h'.reach
    have hout := (hp.outcome_eq_iff hc hp' hu hs hf).mpr (fun t ht => absurd ht (hnone t)) t
    exact ⟨hr.inv.life.state_eq hr'.inv.life hp.no_cancel hp'.no_cancel (hr.threadless hc).calm
      hout, hout⟩
  · obtain ⟨-, hu, hlost⟩ := h.abandoned_iff hc
    rw [hn.plain.outcome_eq_iff hc hn'.plain hu hs hf]
    constructor
    · intro hall b hb
      by_cases hr : b.1.Resolves prog (prog.task b.2)
      · exact .inl hr
      · exact .inr (hall b.2 ((hlost b.2).mpr ⟨b, hb, rfl, hr⟩))
    · intro hall t ht
      obtain ⟨b, hb, rfl, hr⟩ := (hlost t).mp ht
      exact (hall b hb).resolve_left hr
  · have hr' : Reachable s' := .step a h hs trivial
    have hr'' : Reachable s'' := hr'.trans hr
    have hlost := (abandoned_of_futurePanics hc h ho hs).2.1.reach hr' hr
    refine ⟨fun hset => ?_, ?_, (hr''.threadless hc).calm t⟩
    · obtain ⟨site, hsite, -⟩ := hset.site
      simp [hlost.1] at hsite
    · by_contra hne
      obtain ⟨r, hres⟩ := Option.ne_none_iff_exists'.mp hne
      exact ((hr''.inv.life.cell t).resultOk hres).2 hlost.1

end Pool

/-! ## Runs -/

set_option maxRecDepth 2000

/-- A function that panics was submitted, and is in its body. -/
def panickingRun : (pool Specs.inline panicTask).State :=
  (poolInit Specs.inline panicTask).after (call 0 (.submit 0) ::
    List.replicate 7 (call 0 .proceed))

/-- Its panic unwinds. -/
def unwoundRun : (pool Specs.inline panicTask).State := panickingRun.after [call 0 .proceed]

theorem panickingRun_reachable : Reachable panickingRun := .after _ .init

theorem panickingRun_panics : Performs panickingRun (call 0 .proceed) (.futurePanics 0) :=
  ⟨_, rfl⟩

/-- A function that panicked is dropped as it is: its state is `Pending`. -/
theorem Pool.panics_not_contained :
    ¬∀ s : (pool Specs.inline panicTask).State, Reachable s → ∀ t,
      (s.mem.cell t).finish = some .panicked → (s.mem.cell t).owner = .gone →
        (∃ q, (s.mem.cell t).state = .panicked q) ∧ Settled s t := by
  intro h
  have hset := (h (unwoundRun.after [call 0 .proceed])
    (.after _ (.after _ panickingRun_reachable)) 0 (by decide) (by decide)).2
  exact hset.state (by decide)

/-- The chain that was run inline, with the tests of `timely` and `plainly`. -/
theorem successorInline_along : (poolInit Specs.inline successorChain).along
    (fun s a => timely s a && plainly s a)
    (call 0 (.submitAll [1, 0]) :: List.replicate 36 (call 0 .proceed)) = true := by decide

theorem successorInline_timely :
    System.ReachVia (fun s a _ => Timely s a ∧ cancels a = false)
      (poolInit Specs.inline successorChain) (successorInline 36) :=
  .along .init (fun _ _ _ _ h => by
    obtain ⟨ht, hp⟩ := Bool.and_eq_true_iff.mp h
    exact ⟨timely_of_test ht, (plain_of_plainly hp).cancel⟩) _ successorInline_along

theorem successorInline_contained :
    System.ReachVia (fun s a _ => Contained s a)
      (poolInit Specs.inline successorChain) (successorInline 36) :=
  .along .init (fun _ _ _ _ h => by
    obtain ⟨ht, hp⟩ := Bool.and_eq_true_iff.mp h
    exact ⟨timely_of_test ht, (plain_of_plainly hp).turn⟩) _ successorInline_along

theorem successorInline_named : (call 0 (.submitAll [1, 0]) :: List.replicate 36 (call 0 .proceed) :
    List (pool Specs.inline successorChain).Action).flatMap names = [1, 0] := by decide

theorem successorInline_ended : submissions (successorInline 36) = {t | t ∈ [1, 0]} :=
  submissions_eq successorInline_named (by decide)

theorem successorInline_unoccupied : Unoccupied (successorInline 36) := by
  intro e t ht
  have hmem : t ∈ submissions (successorInline 36) := by simp [submissions, ht]
  rw [successorInline_ended] at hmem
  have hgone : ∀ t ∈ [1, 0], ((successorInline 36).mem.cell t).owner = .gone := by decide
  simp [hgone t hmem] at ht

theorem successorRun_uncancelled : Uncancelled successorRun :=
  successorRun_plain.mono fun _ _ _ ha => ha.cancel

/-- The chain that was run inline is accounted for and does as on a thread, and the
function that panics is lost. -/
theorem Pool.panics_contained_successorInline :
    Accounted (successorInline 36) 0 ∧
      ((successorInline 36).mem.cell 1).outcome = (successorRun.mem.cell 1).outcome ∧
        ¬Settled unwoundRun 0 := by
  have h := @panics_contained _ _ Specs.inline Specs.one successorChain rfl
  have hsub : submissions (successorInline 36) = submissions successorRun := by
    rw [successorInline_ended, successorRun_submissions]
    ext t
    simp [or_comm]
  have hend := (h.2.1 _ successorInline_timely).2 successorRun successorRun_uncancelled
    successorInline_unoccupied hsub (final_after successorRun_names (by decide))
  have hpanic := @panics_contained _ _ Specs.inline Specs.one panicTask rfl
  exact ⟨(h.1 _ successorInline_contained).1 0, (hend 1).2,
    (hpanic.2.2.2 panickingRun unwoundRun (call 0 .proceed) 0 panickingRun_reachable
      panickingRun_panics rfl unwoundRun .init).1⟩

end MVSync
