import MVSync.Pool.Completion

/-!
# The waits on handles return

Some callers wait on handles while the threads of the pool work.  Each of them comes out
of `TaskHandle::wait` with what the chain of its task evaluates to
(`Pool.handles_return`).  A handle is moved into the call, so no two of these callers wait
for one task, and no continuation takes the wake-up of the last task of a chain.
-/

namespace MVSync

open Concurrency Pool

variable {V P : Type} {cfg : Specs} {prog : Program V P} {m : Shared V P} {op : Op V P}
  {t u : TaskId} {e e' : CallerId}

/-! ## One step of a wait -/

/-- The steps of `TaskHandle::wait`. -/
inductive HandleStep (t : TaskId) (m : Shared V P) :
    CallerPc V P → CallerPc V P → Op V P → Prop where
  | wake (hr : (m.cell t).signal.ready = true) :
      HandleStep t m (.waitSignal t .handle) (.takeState t) (.waitSignal t .handle)
  | ready : HandleStep t m (.takeState t) (.takeBuffer t) .tau
  | take {r : TaskResult V P} : HandleStep t m (.takeState t) .idle (.takeResult t .handle r)
  | value {v : V} : HandleStep t m (.takeBuffer t) .idle (.takeBuffer t .handle v)

/-- What is left of a wait on a handle. -/
def CallerPc.waitTurn : CallerPc V P → Nat
  | .waitSignal _ _ => 3
  | .takeState _ => 2
  | .takeBuffer _ => 1
  | _ => 0

namespace HandleStep

variable {p p' : CallerPc V P}

theorem waitTurn_lt (h : HandleStep t m p p' op) : p'.waitTurn < p.waitTurn := by
  cases h <;> simp [CallerPc.waitTurn]

theorem calm (h : HandleStep t m p p' op) : Calm m (op.exec m) := by
  cases h <;> exact Op.calm_exec rfl

theorem owner_eq (h : HandleStep t m p p' op) (u : TaskId) :
    ((op.exec m).cell u).owner = (m.cell u).owner := by
  cases h <;> by_cases hu : u = t <;> simp [Op.exec, Taker.advance, Shared.modify_cell_of_ne, hu]

theorem queueAlive_eq (h : HandleStep t m p p' op) :
    (op.exec m).queueAlive = m.queueAlive := by
  cases h <;> rfl

theorem ne_sending (h : HandleStep t m p p' op) (sent : Bool) (xs : List Task) :
    p' ≠ .sending sent xs := by
  cases h <;> exact fun h => by cases h

/-- A wait takes no flag but its own. -/
theorem eq_of_takes (h : HandleStep t m p p' (.waitSignal u k)) : u = t ∧ k = .handle := by
  cases h
  exact ⟨rfl, rfl⟩

end HandleStep

namespace Pool

variable {s s' : (pool cfg prog).State} {a : (pool cfg prog).Action}

/-! ## Waiting callers -/

/-- The caller waits for `t` on its handle, and nobody took the wake-up before it, or it
is back with a result. -/
inductive Returning (s : (pool cfg prog).State) (e : CallerId) (t : TaskId) : Prop where
  | waits (he : caller s e = .waitSignal t .handle) (ht : (s.mem.cell t).takes = [])
  | takesState (he : caller s e = .takeState t)
  | takesBuffer (he : caller s e = .takeBuffer t)
  | returned (he : caller s e = .idle) (hr : (s.mem.cell t).result ≠ none)

/-- A waiting caller makes a step of its wait. -/
theorem Returning.handleStep (h : Returning s e t) (hr : Reachable s) {q : CallerPc V P}
    {o : Op V P} (hn : callerNext cfg prog e .proceed (caller s e) s.mem = some (q, o)) :
    HandleStep t s.mem (caller s e) q o := by
  cases h with
  | waits he =>
      rw [he] at hn ⊢
      cases callerNext_step hn with
      | wake hready =>
          exact .wake hready
  | takesState he =>
      have hsafe := hr.waitsSafe.takeState e t he
      rw [he] at hn ⊢
      cases callerNext_step hn with
      | takeReady =>
          exact .ready
      | takePanicked | takeCancelled =>
          exact .take
      | takePending hs =>
          exact absurd hs hsafe
  | takesBuffer he =>
      have hsafe := hr.waitsSafe.takeBuffer e t he
      rw [he] at hn ⊢
      cases callerNext_step hn with
      | takeBuffer =>
          exact .value
      | takeNone hb =>
          exact absurd hb hsafe
  | returned he =>
      rw [he] at hn
      cases hn

/-- What a waiting caller is left with by a step of its wait. -/
theorem Returning.of_handleStep {p q : CallerPc V P} {o : Op V P} (h : HandleStep t s.mem p q o) :
    Returning (s.move (.caller e) q o) e t := by
  have hpc : caller (s.move (.caller e) q o) e = q := caller_move s o e q
  have hmem : (s.move (.caller e) q o).mem = o.exec s.mem := rfl
  cases h with
  | wake => exact .takesState hpc
  | ready => exact .takesBuffer hpc
  | take => exact .returned hpc (by simp [hmem, Op.exec, Taker.advance])
  | value => exact .returned hpc (by simp [hmem, Op.exec, Taker.advance])

/-- The other threads leave a waiting caller where it is. -/
theorem Returning.other (h : Returning s e t) (hr : Reachable s) (hs : s.step a = some s')
    (ha : a.tid ≠ .caller e) (hno : ∀ k, ¬TakesFlag s a t k) : Returning s' e t := by
  have hpc : caller s' e = caller s e := by
    obtain ⟨q, o, -, rfl⟩ := System.State.step_cases hs
    exact System.State.move_pc_of_ne s q o ha.symm
  cases h with
  | waits he ht => exact .waits (hpc.trans he) ((takes_of_step hs hno).trans ht)
  | takesState he => exact .takesState (hpc.trans he)
  | takesBuffer he => exact .takesBuffer (hpc.trans he)
  | returned he hres =>
      obtain ⟨r, hr'⟩ := Option.ne_none_iff_exists'.mp hres
      exact .returned (hpc.trans he) (by simp [((hr.grows hs).cell t).result r hr'])

/-- A thread of the pool takes the wake-up of a task for its continuation only. -/
theorem Prompt.not_takesFlag (ha : Prompt a) (hr : Reachable s) (ht : prog.succ t = none)
    (k : Taker) : ¬TakesFlag s a t k := by
  rintro ⟨q, hn⟩
  obtain ⟨-, rfl | hk⟩ := hr.performs ⟨q, hn⟩
  · simpa [Op.interferes] using ha.interferes ⟨q, hn⟩
  · cases k with
    | continuation c => simp [Program.pred_succ.mp hk.2] at ht
    | handle =>
        obtain ⟨-, e, he, -⟩ := hk
        exact ha.tid_ne e he
    | observer => exact hk

/-! ## All of them return -/

/-- The threads of the pool take their turns, and the callers `es` go on with their calls. -/
def Proceeds (es : Finset CallerId) (a : (pool cfg prog).Action) : Prop :=
  Prompt a ∨ ∃ e ∈ es, a = call e .proceed

/-- The callers `es` wait for the tasks `t` while the pool works on from `s₀`. -/
structure Awaiting (s₀ : (pool cfg prog).State) (es : Finset CallerId) (t : CallerId → TaskId)
    (s : (pool cfg prog).State) : Prop where
  underway : Underway s₀ s
  place : ∀ e ∈ es, Returning s e (t e)
  handle : ∀ e ∈ es, prog.succ (t e) = none ∧ (s.mem.cell (t e)).handle = some e

/-- What is left of the waits of the callers. -/
def waitTurn (es : Finset CallerId) (s : (pool cfg prog).State) : Nat :=
  ∑ e ∈ es, (caller s e).waitTurn

variable {s₀ : (pool cfg prog).State} {es : Finset CallerId} {ts : CallerId → TaskId}

theorem Awaiting.prompt (h : Awaiting s₀ es ts s) (ha : Prompt a) (hs : s.step a = some s') :
    Awaiting s₀ es ts s' where
  underway := h.underway.moves ⟨a, ha, hs⟩
  place e he :=
    (h.place e he).other h.underway.run.reach hs (ha.tid_ne e)
      (ha.not_takesFlag h.underway.run.reach (h.handle e he).1)
  handle e he :=
    ⟨(h.handle e he).1,
      ((Reachable.grows h.underway.run.reach hs).cell _).handle e (h.handle e he).2⟩

/-- A caller whose step is calm leaves the pool as much to do as it had. -/
theorem rank_caller {q : CallerPc V P} {o : Op V P} (h : Calm s.mem (o.exec s.mem)) :
    rank (s.move (.caller e) q o) = rank s := by
  have hmem : (s.move (.caller e) q o).mem = o.exec s.mem := rfl
  simp only [rank, remaining, wakeUps, turn, dispatcher_move_caller, worker_move_caller, hmem,
    h.backlog, h.raised, h.workerChannel]

/-- A step of one of the waits. -/
theorem Awaiting.handleStep (h : Awaiting s₀ es ts s) (he : e ∈ es) {q : CallerPc V P} {o : Op V P}
    (hn : callerNext cfg prog e .proceed (caller s e) s.mem = some (q, o)) :
    HandleStep (ts e) s.mem (caller s e) q o :=
  (h.place e he).handleStep h.underway.run.reach hn

/-- What one of the waits takes is the wake-up of its own task. -/
theorem Awaiting.eq_of_takesFlag (h : Awaiting s₀ es ts s) (he : e ∈ es) {k : Taker}
    (ht : TakesFlag s (call e .proceed) u k) : u = ts e ∧ k = .handle := by
  obtain ⟨q, hn⟩ := ht
  exact (h.handleStep he hn).eq_of_takes

theorem Awaiting.proceed (h : Awaiting s₀ es ts s) (he : e ∈ es)
    (hs : s.step (call e .proceed) = some s') :
    Awaiting s₀ es ts s' ∧ rank s' = rank s ∧ waitTurn es s' < waitTurn es s := by
  have hr : Reachable s := h.underway.run.reach
  have hown := fun p k => h.eq_of_takesFlag he (u := p) (k := k)
  obtain ⟨q, o, hn, hmove⟩ := System.State.step_cases hs
  have hstep := h.handleStep he hn
  have hmem : s'.mem = o.exec s.mem := by rw [hmove]; rfl
  have hself : caller s' e = q := by rw [hmove]; exact caller_move s o e q
  have hpc : ∀ e', e' ≠ e → caller s' e' = caller s e' := by
    intro e' hne
    rw [hmove]
    exact caller_move_of_ne s o hne q
  have hrun : PromptRun s' := by
    refine .step _ h.underway.run hs ⟨⟨rfl, rfl, fun p _ ht => ?_⟩, fun w hw => by cases hw⟩
    cases (hown p _ ht).2
  refine ⟨⟨⟨hrun, fun e' => ?_, fun u => ?_, ?_⟩, fun e' he' => ?_, fun e' he' => ?_⟩, ?_, ?_⟩
  · by_cases hne : e' = e
    · rw [hne, hself]
      exact hstep.ne_sending
    · rw [hpc e' hne]
      exact h.underway.caller e'
  · rw [hmem, hstep.owner_eq]
    exact h.underway.owner u
  · rw [hmem, hstep.queueAlive_eq]
    exact h.underway.queueAlive
  · by_cases hne : e' = e
    · rw [hne, hmove]
      exact .of_handleStep hstep
    · refine (h.place e' he').other hr hs (fun hc => hne (by cases hc; rfl)) fun k ht => ?_
      -- one handle is in the hands of one caller
      have hsame := (h.handle e' he').2
      rw [(hown _ k ht).1, (h.handle e he).2] at hsame
      exact hne (Option.some.inj hsame).symm
  · exact ⟨(h.handle e' he').1, ((hr.grows hs).cell _).handle e' (h.handle e' he').2⟩
  · rw [hmove]
    exact rank_caller hstep.calm
  · refine Finset.sum_lt_sum (fun e' _ => ?_) ⟨e, he, ?_⟩
    · by_cases hne : e' = e
      · rw [hne, hself]
        exact Nat.le_of_lt hstep.waitTurn_lt
      · rw [hpc e' hne]
    · rw [hself]
      exact hstep.waitTurn_lt

theorem Awaiting.moves (h : Awaiting s₀ es ts s) (hm : s.Moves (Proceeds es) s') :
    Awaiting s₀ es ts s' ∧ toLex (rank s', waitTurn es s') < toLex (rank s, waitTurn es s) := by
  obtain ⟨a, ha | ⟨e, he, rfl⟩, hs⟩ := hm
  · exact ⟨h.prompt ha hs, Prod.Lex.toLex_lt_toLex.mpr (.inl (rank_moves ⟨a, ha.1, hs⟩))⟩
  · obtain ⟨hk, hrank, hturn⟩ := h.proceed he hs
    exact ⟨hk, Prod.Lex.toLex_lt_toLex.mpr (.inr ⟨hrank, hturn⟩)⟩

/-- Where the pool and the callers are blocked, the callers have returned. -/
theorem Awaiting.idle (h : Awaiting s₀ es ts s) (hroom : Roomy cfg prog)
    (hh : s.Halted (Proceeds es)) (he : e ∈ es) (hg : Grounded s₀ (ts e)) :
    caller s e = .idle ∧ (s.mem.cell (ts e)).result ≠ none := by
  have hr : Reachable s := h.underway.run.reach
  have hblocked : callerNext cfg prog e .proceed (caller s e) s.mem = none :=
    hh (call e .proceed) (.inr ⟨e, he, rfl⟩)
  cases h.place e he with
  | waits hp ht =>
      have hdone := h.underway.completed hroom (fun a ha => hh a (.inl ha)) hg
      obtain ⟨site, hw, -⟩ := hdone.settled.site
      have hready := (hr.ready_iff (by simp [hw])).mpr ht
      simp [hp, callerNext, Signal.wait?, hready] at hblocked
  | takesState hp =>
      rw [hp] at hblocked
      simp only [callerNext] at hblocked
      split at hblocked <;> cases hblocked
  | takesBuffer hp =>
      rw [hp] at hblocked
      simp only [callerNext] at hblocked
      split at hblocked <;> cases hblocked
  | returned hp hres => exact ⟨hp, hres⟩

/-- While the threads of the pool take their turns, the callers that wait on handles all
return, in whatever order everybody moves.  Each of them has the value of its task, or a
panic. -/
theorem handles_return (es : Finset CallerId) (ts : CallerId → TaskId)
    (hroom : Roomy cfg prog) (h : PromptRun s₀)
    (hcall : ∀ e sent xs, caller s₀ e ≠ .sending sent xs)
    (hwait : ∀ e ∈ es, caller s₀ e = .waitSignal (ts e) .handle ∧
      (s₀.mem.cell (ts e)).takes = [] ∧ Grounded s₀ (ts e)) :
    System.Inevitable (Proceeds es) (fun s => ∀ e ∈ es, caller s e = .idle ∧
      ((∃ v, (s.mem.cell (ts e)).result = some (.returned v) ∧ prog.Evals (ts e) (.ok v)) ∨
        (s.mem.cell (ts e)).result = some (.panicked .unit) ∧
          ∃ q, prog.Evals (ts e) (.error q))) s₀ := by
  have hr : Reachable s₀ := h.reach
  let R : System.Ranking (pool cfg prog) (Proceeds es) (Awaiting s₀ es ts)
      ((ℕ ×ₗ ℕ ×ₗ ℕ) ×ₗ ℕ) :=
    ⟨fun s => toLex (rank s, waitTurn es s), fun hi hm => (hi.moves hm).1,
      fun hi hm => (hi.moves hm).2⟩
  refine R.inevitable (fun s hi hh e he => ?_)
    ⟨⟨h, hcall, fun _ => .rfl, rfl⟩, fun e he => ?_, fun e he => ?_⟩
  · obtain ⟨hidle, hres⟩ := hi.idle hroom hh he (hwait e he).2.2
    refine ⟨hidle, ?_⟩
    obtain ⟨r, hr⟩ := Option.ne_none_iff_exists'.mp hres
    rcases (Reachable.inv hi.underway.run.reach).life.result_evals hi.underway.run.no_cancel hr with
      ⟨v, rfl, hv⟩ | ⟨rfl, hq⟩
    · exact .inl ⟨v, hr, hv⟩
    · exact .inr ⟨hr, hq⟩
  · exact .waits (hwait e he).1 (hwait e he).2.1
  · have hk := (hr.caller e).knows
    rw [(hwait e he).1] at hk
    rcases hk with hk | ⟨-, hsucc, hhandle, -⟩
    · cases hk
    · exact ⟨hsucc, hhandle⟩

end Pool

/-! ## The wait for the end of a chain -/

set_option maxRecDepth 2000

/-- The chain of two functions is submitted, and a caller waits on the handle of its
end. -/
def waitingRun : (pool Specs.one successorChain).State :=
  (poolInit _ _).after (leftSchedule ++ [call 1 (.handleWait 1)])

theorem waitingRun_caller (e : CallerId) (sent : Bool) (xs : List Task) :
    caller waitingRun e ≠ .sending sent xs := by
  by_cases he : e = 1
  · rw [he, show caller waitingRun 1 = .waitSignal 1 .handle from by decide]
    exact fun h => by cases h
  · have hsame : caller waitingRun e = caller leftRun e := by
      rw [waitingRun, System.State.after_append]
      refine System.State.after_pc_of_ne (i := Tid.caller e) _ fun a ha => ?_
      rw [List.mem_singleton.mp ha]
      exact fun h => he (by cases h; rfl)
    rw [hsame]
    exact leftRun_caller e sent xs

/-- The caller returns with the value of the chain. -/
theorem Pool.handles_return_waitingRun :
    System.Inevitable (Proceeds {1}) (fun s => ∀ e ∈ ({1} : Finset CallerId), caller s e = .idle ∧
      ((∃ v, (s.mem.cell 1).result = some (.returned v) ∧ successorChain.Evals 1 (.ok v)) ∨
        (s.mem.cell 1).result = some (.panicked .unit) ∧
          ∃ q, successorChain.Evals 1 (.error q))) waitingRun := by
  refine handles_return {1} (fun _ => 1) successorChain_roomy (.of_prompts (by decide))
    waitingRun_caller fun e he => ?_
  rw [Finset.mem_singleton.mp he]
  exact ⟨by decide, by decide, grounded_chain (by decide) (by decide)⟩

end MVSync
