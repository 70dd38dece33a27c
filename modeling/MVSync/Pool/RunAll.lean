import MVSync.Pool.Inline

/-!
# `run_all` does not return

`run_all` gives up after five passes in a row that settle no task.  It counts
them in `count`, but the variable is declared inside the loop, so it is `0` again
at the start of every pass and never gets past `1`.  The only `break` of the loop
is never reached: the caller goes on with one pass after the other, with no task
left in the end.  It gets out by the panic of a body only.
-/

namespace MVSync

open Concurrency Pool

variable {V P : Type} {cfg : Specs} {prog : Program V P} {m : Shared V P} {op : Op V P}
  {e : CallerId} {c : CallerInput}

/-- The caller is inside `run_all`. -/
def CallerPc.RunsAll (p : CallerPc V P) : Prop := ∃ q, p.pass = some q ∧ q.all = true

/-- Without threads, `submit_all` and its variants call `run_all`. -/
theorem callNext_runAll (hc : cfg.threadCount = 0) {f : Task → Task} {ts : List TaskId}
    (hcall : c.submits = some (true, f, ts)) {p' : CallerPc V P}
    (h : callNext cfg prog e c m = some (p', op)) : p' = .run (.begin true (ts.map prog.task)) := by
  have hsubmit : ∀ {g : Task → Task}, submitNext cfg prog e true g ts m = some (p', op) →
      p' = .run (.begin true (ts.map prog.task)) := by
    intro g hg
    unfold submitNext at hg
    simp only [hc, if_true] at hg
    split at hg
    · cases hg
      rfl
    · cases hg
  cases c with
  | submitAll ts' =>
      obtain ⟨-, -, rfl⟩ := Option.some.inj hcall
      exact hsubmit h
  | submitAllOn ts' l =>
      obtain ⟨-, -, rfl⟩ := Option.some.inj hcall
      exact hsubmit (g := (·.setPreferredThread l)) h
  | _ => cases hcall

/-- A step of `run_all` stays inside, unless a body panics. -/
theorem callerNext_runsAll {p p' : CallerPc V P} (hi : p.Inline) (hp : p.RunsAll)
    (h : callerNext cfg prog e c p m = some (p', op)) :
    p'.RunsAll ∨ ∃ t, op = .futurePanics t := by
  obtain ⟨q, hq, hall⟩ := hp
  cases callerNext_step h with
  | giveUp _ _ hn =>
      -- the counter would have to survive the end of a pass
      have hcount := hi _ rfl
      omega
  | endRun _ ha | unsignalledDropped _ ha | predPendingDropped _ ha =>
      obtain rfl := Option.some.inj hq
      simp [ha] at hall
  | getPanic | panic => exact hi.elim
  | err hpoll => exact .inr (pollNext_err hpoll)
  | next | again | isPanicked | notPanicked | predCancelled | predNotCancelled | selfCancelled
  | selfNotCancelled | signalled | unsignalledKept | pass | predPendingKept | replace | newSignal
  | more | pending | ready | unblock | settle | settled =>
      obtain rfl := Option.some.inj hq
      exact .inl ⟨_, rfl, by first | exact hall | rfl⟩
  | _ => cases hq

namespace Pool

variable {s s' : (pool cfg prog).State} {a : (pool cfg prog).Action}

/-- The step is the panic of a body that `e` runs. -/
def BodyPanics (e : CallerId) (s : (pool cfg prog).State) (a : (pool cfg prog).Action) : Prop :=
  a.tid = .caller e ∧ ∃ t, Performs s a (.futurePanics t)

theorem runsAll_step (hc : cfg.threadCount = 0) (h : Reachable s) (hr : (caller s e).RunsAll)
    (ha : ¬BodyPanics e s a) (hs : s.step a = some s') : (caller s' e).RunsAll := by
  rcases step_cases hs with ⟨q, o, rfl, -, rfl⟩ | ⟨w, pends, q, o, rfl, -, rfl⟩ |
    ⟨e', c, q, o, rfl, hn, rfl⟩
  · rwa [caller_move_dispatcher]
  · rwa [caller_move_worker]
  · by_cases he : e = e'
    · subst he
      rw [caller_move]
      refine (callerNext_runsAll ((h.threadless hc).caller e) hr hn).resolve_right ?_
      rintro ⟨t, rfl⟩
      exact ha ⟨rfl, t, q, hn⟩
    · rwa [caller_move_of_ne s o he]

/-- A call of `submit_all`, or of a variant of it, to a queue without threads never
returns, whatever the tasks are, as long as no body of them panics: in every
later state its caller is inside `run_all`. -/
theorem run_all_never_returns (hc : cfg.threadCount = 0) (e : CallerId) (c : CallerInput)
    (f : Task → Task) (ts : List TaskId) (hcall : c.submits = some (true, f, ts))
    (s s₁ s' : (pool cfg prog).State) (h : Reachable s) (hidle : caller s e = .idle)
    (hs : s.step (call e c) = some s₁)
    (hr : System.ReachVia (fun s a _ => ¬BodyPanics e s a) s₁ s') : (caller s' e).RunsAll := by
  have h₁ : Reachable s₁ := .step (call e c) h hs trivial
  have hstart : (caller s₁ e).RunsAll := by
    obtain ⟨q, o, hn, rfl⟩ := System.State.step_cases hs
    have hn : callerNext cfg prog e c (caller s e) s.mem = some (q, o) := hn
    have hmove : caller (s.move (.caller e) q o) e = q := caller_move s o e q
    change (caller (s.move (.caller e) q o) e).RunsAll
    rw [hmove]
    rw [hidle] at hn
    rw [callNext_runAll hc hcall hn]
    exact ⟨_, rfl, rfl⟩
  exact hr.invariant (I := fun s => (caller s e).RunsAll) hstart
    fun a hr hi hs ha => runsAll_step hc (h₁.trans hr.reach) hi ha hs

/-! ## Two calls -/

/-- A call of `submit_all` returns when only its caller moves and every body
returns. -/
def RunAllReturns (cfg : Specs) (prog : Program V P) : Prop :=
  (∀ t v, ∃ r, prog.body t v = .ok r) →
    ∀ (s : (pool cfg prog).State) (e : CallerId) (ts : List TaskId), Reachable s →
      caller s e = .idle → s.mem.Submittable ts →
      ∃ n, caller (s.after (call e (.submitAll ts) :: List.replicate n (call e .proceed))) e = .idle

/-- A pass over no task is followed by another one. -/
theorem empty_pass (n : Nat) (hp : caller s e = .run (.begin true [])) :
    caller (s.after (List.replicate n (call e .proceed))) e = .run (.begin true []) := by
  induction n generalizing s with
  | zero => exact hp
  | succ n ih =>
      have hstep : s.step (call e .proceed) =
          some (s.move (.caller e) (.run (.begin true [])) .tau) := by
        have hn : s.next (call e .proceed) = some (.run (.begin true []), .tau) := by
          show callerNext cfg prog e .proceed (caller s e) s.mem = _
          rw [hp]
          rfl
        rw [System.State.step, hn]
        rfl
      rw [List.replicate_succ, System.State.after_cons, hstep, Option.getD_some]
      exact ih (caller_move s .tau e _)

end Pool

/-- `submit_all` of no task does not return. -/
theorem Pool.run_all_of_no_task : ¬RunAllReturns Specs.inline relay := by
  intro h
  obtain ⟨n, hn⟩ := h (fun _ _ => ⟨5, rfl⟩) (poolInit Specs.inline relay) 0 [] .init rfl
    ⟨rfl, List.nodup_nil, by simp⟩
  have hloop := empty_pass (s := (poolInit Specs.inline relay).after [call 0 (.submitAll [])])
    (e := 0) n rfl
  rw [System.State.after_cons] at hn
  cases hn.symm.trans hloop

set_option maxRecDepth 2000

/-- The state when three functions are submitted together. -/
def relayCalled : (pool Specs.inline relay).State :=
  (poolInit Specs.inline relay).after [call 0 (.submitAll [0, 1, 2])]

/-- The state sixty steps later. -/
def relayDone : (pool Specs.inline relay).State :=
  relayCalled.after (List.replicate 60 (call 0 .proceed))

/-- The test of `BodyPanics` on the operation. -/
def Op.isPanic : Op V P → Bool
  | .futurePanics _ => true
  | _ => false

theorem Pool.not_bodyPanics_of_op {s : (pool cfg prog).State} {a : (pool cfg prog).Action}
    (h : (match s.next a with
      | some (_, o) => !o.isPanic
      | none => true) = true) : ¬BodyPanics e s a := by
  rintro ⟨-, t, q, hn⟩
  rw [hn] at h
  cases h

/-- The three functions are settled, and `submit_all` did not return. -/
theorem Pool.run_all_never_returns_relay :
    (∀ t < 3, (relayDone.mem.cell t).wakes ≠ []) ∧ (caller relayDone 0).RunsAll :=
  ⟨by decide, run_all_never_returns rfl 0 (.submitAll [0, 1, 2]) id [0, 1, 2] rfl
    (poolInit Specs.inline relay) relayCalled relayDone .init rfl rfl
    (.along .init (fun _ _ _ _ => not_bodyPanics_of_op) _ (by decide))⟩

end MVSync
