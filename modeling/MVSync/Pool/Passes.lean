import MVSync.Concurrency.Rounds
import MVSync.Pool.System

/-!
# The passes of `run_all`

`run_all` as a function of the memory, when no other thread moves: which operations a
turn of its inner loop performs on the task at hand, and from the turns the passes.  The
caller of `Caller.lean` does the same, one atomic operation after the other.

A turn says everything at once that can happen to a task: the three arms that settle it,
or the one that keeps it for the next pass.
-/

namespace MVSync

open Concurrency

variable {V P : Type} {prog : Program V P} {e : CallerId} {m : Shared V P} {x : Task}

/-- Operations one after the other. -/
def Shared.execAll (m : Shared V P) (ops : List (Op V P)) : Shared V P :=
  ops.foldl (fun m o => o.exec m) m

@[simp] theorem Shared.execAll_nil (m : Shared V P) : m.execAll [] = m := rfl

@[simp] theorem Shared.execAll_cons (m : Shared V P) (o : Op V P) (ops : List (Op V P)) :
    m.execAll (o :: ops) = (o.exec m).execAll ops := rfl

@[simp] theorem Shared.execAll_append (m : Shared V P) (ops ops' : List (Op V P)) :
    m.execAll (ops ++ ops') = (m.execAll ops).execAll ops' := List.foldl_append

namespace RunAll

/-! ## Turns -/

/-- Why a turn does not end. -/
inductive Stop (P : Type) where
  /-- `predecessor.wait()` blocks. -/
  | blocked
  /-- The future panics, and `run_all` unwinds. -/
  | unwinds (q : Payload P)
deriving DecidableEq, Repr

/-- The function of a task, and what its future does with the value. -/
def body (prog : Program V P) (x : Task) (v : Option V) : Except (Stop P) (List (Op V P)) :=
  match prog.body x.id v with
  | .ok r => .ok [.invoke x.id v, .bodyReturns x.id r, .writeBuffer x.id r, .writeReady x.id]
  | .error q => .error (.unwinds q)

/-- `await_sync` on the future of a task. -/
def awaitSync (prog : Program V P) (m : Shared V P) (x : Task) :
    Except (Stop P) (List (Op V P)) :=
  match x.inner.predecessor with
  | none => body prog x none
  | some p =>
      if (m.cell p).signal.ready then
        match (m.cell p).state with
        | .ready =>
            match (m.cell p).buffer with
            | some v =>
                (body prog x (some v)).map fun ops =>
                  .waitSignal p (.continuation x.id) :: .takeBuffer p (.continuation x.id) v :: ops
            | none => .error (.unwinds (.message "called `Option::unwrap()` on a `None` value"))
        | .panicked _ =>
            .ok [.waitSignal p (.continuation x.id),
              .takeResult p (.continuation x.id) (.panicked .unit),
              .replace x.id (.panicked .unit) .panicked]
        | .cancelled =>
            .ok [.waitSignal p (.continuation x.id),
              .takeResult p (.continuation x.id) .cancelled,
              .replace x.id .cancelled .cancelled]
        | .pending =>
            .error (.unwinds (.message "Function finished but is still pending!"))
      else .error .blocked

/-- The two loops at the end of each arm. -/
def settle (x : Task) (site : Site) : List (Op V P) :=
  x.semaphores.map (.signalSem x.id) ++ [.wakeSignal x.id site, .wakeQueue x.id x.home site]

/-- The body of the inner loop.  It is `none` for a task that is pushed to `new_tasks`. -/
def turn (prog : Program V P) (e : CallerId) (m : Shared V P) (x : Task) :
    Except (Stop P) (Option (List (Op V P))) :=
  if m.isPanicked x then
    .ok (some (.replace x.id (.panicked .unit) .panicked :: settle x .inlinePanicked))
  else if m.isCancelled x then
    .ok (some (.replace x.id .cancelled .cancelled :: settle x .inlineCancelled))
  else if m.canExecute x then
    (awaitSync prog m x).map fun ops =>
      some (.pass x.id :: .newCallerSignal e :: ops ++ settle x .inlineReady)
  else .ok none

/-- The arms of the inner loop. -/
inductive Turns (prog : Program V P) (e : CallerId) (m : Shared V P) (x : Task) :
    Except (Stop P) (Option (List (Op V P))) → Prop where
  | panicked (hp : m.isPanicked x = true) : Turns prog e m x
      (.ok (some (.replace x.id (.panicked .unit) .panicked :: settle x .inlinePanicked)))
  | cancelled (hp : m.isPanicked x = false) (hc : m.isCancelled x = true) : Turns prog e m x
      (.ok (some (.replace x.id .cancelled .cancelled :: settle x .inlineCancelled)))
  | executed (hp : m.isPanicked x = false) (hc : m.isCancelled x = false)
      (he : m.canExecute x = true) {ops : List (Op V P)} (h : awaitSync prog m x = .ok ops) :
      Turns prog e m x
        (.ok (some (.pass x.id :: .newCallerSignal e :: ops ++ settle x .inlineReady)))
  | stopped (hp : m.isPanicked x = false) (hc : m.isCancelled x = false)
      (he : m.canExecute x = true) {w : Stop P} (h : awaitSync prog m x = .error w) :
      Turns prog e m x (.error w)
  | kept (hp : m.isPanicked x = false) (hc : m.isCancelled x = false)
      (he : m.canExecute x = false) : Turns prog e m x (.ok none)

theorem turn_cases (prog : Program V P) (e : CallerId) (m : Shared V P) (x : Task) :
    Turns prog e m x (turn prog e m x) := by
  unfold turn
  cases hp : m.isPanicked x with
  | true => exact .panicked hp
  | false =>
      cases hc : m.isCancelled x with
      | true => exact .cancelled hp hc
      | false =>
          cases he : m.canExecute x with
          | false => exact .kept hp hc he
          | true =>
              cases hawait : awaitSync prog m x with
              | error w => exact .stopped hp hc he hawait
              | ok ops => exact .executed hp hc he hawait

/-! ## Passes -/

/-- The memory, and the operations that were performed on it. -/
structure Trace (V P : Type) where
  mem : Shared V P
  log : List (Op V P)

/-- The operations of a turn. -/
def Trace.perform (r : Trace V P) (ops : List (Op V P)) : Trace V P :=
  ⟨r.mem.execAll ops, r.log ++ ops⟩

/-- A turn on a task that is in the list. -/
def step (prog : Program V P) (e : CallerId) (r : Trace V P) (x : Task) :
    Except (Stop P) (Option (Trace V P)) :=
  (turn prog e r.mem x).map fun ops => ops.map r.perform

/-- A pass of the outer loop of `run_all` over `tasks`: `new_tasks` and what it did. -/
def pass (prog : Program V P) (e : CallerId) (tasks : List Task) (r : Trace V P) :
    Except (Stop P) (List Task × Trace V P) :=
  Rounds.round (step prog e) tasks r

/-- `n` passes. -/
def passes (prog : Program V P) (e : CallerId) (n : Nat) (tasks : List Task) (m : Shared V P) :
    Except (Stop P) (List Task × Trace V P) :=
  Rounds.rounds (step prog e) n tasks ⟨m, []⟩

/-! ## The caller -/

/-- The caller `e` alone, at a position and over a memory, with the operations that it
performs.  Its user code is never pending. -/
inductive Walk (cfg : Specs) (prog : Program V P) (e : CallerId) :
    CallerPc V P → Shared V P → List (Op V P) → CallerPc V P → Prop where
  | refl {p : CallerPc V P} {m : Shared V P} : Walk cfg prog e p m [] p
  | tau {p q p' : CallerPc V P} {m : Shared V P} {ops : List (Op V P)}
      (h : callerNext cfg prog e .proceed p m = some (q, .tau)) (w : Walk cfg prog e q m ops p') :
      Walk cfg prog e p m ops p'
  | op {p q p' : CallerPc V P} {m : Shared V P} {o : Op V P} {ops : List (Op V P)}
      (h : callerNext cfg prog e .proceed p m = some (q, o))
      (w : Walk cfg prog e q (o.exec m) ops p') : Walk cfg prog e p m (o :: ops) p'

variable {cfg : Specs} {p q p' : CallerPc V P} {ops ops' : List (Op V P)}

theorem Walk.trans (h : Walk cfg prog e p m ops q)
    (h' : Walk cfg prog e q (m.execAll ops) ops' p') :
    Walk cfg prog e p m (ops ++ ops') p' := by
  induction h with
  | refl => exact h'
  | tau hn _ ih => exact .tau hn (ih h')
  | op hn _ ih => exact .op hn (ih h')

/-- In the pool, the caller gets there if nobody else moves. -/
theorem Walk.after {s : (pool cfg prog).State} (h : Walk cfg prog e p m ops q)
    (hp : Pool.caller s e = p) (hm : s.mem = m) :
    ∃ k, ∀ s', s' = s.after (List.replicate k (Pool.call e .proceed)) →
      Pool.caller s' e = q ∧ s'.mem = m.execAll ops := by
  have hstep : ∀ {s : (pool cfg prog).State} {q : CallerPc V P} {o : Op V P},
      callerNext cfg prog e .proceed (Pool.caller s e) s.mem = some (q, o) →
      s.step (Pool.call e .proceed) = some (s.move (.caller e) q o) :=
    fun hn => System.State.step_of_next (a := Pool.call e .proceed) hn
  induction h generalizing s with
  | refl => exact ⟨0, fun s' hs' => hs' ▸ ⟨hp, hm⟩⟩
  | @tau p q p' m ops hn _ ih =>
      subst hp hm
      obtain ⟨k, hk⟩ := ih (Pool.caller_move s .tau e q) rfl
      refine ⟨k + 1, fun s' hs' => hk s' ?_⟩
      rw [hs', List.replicate_succ, System.State.after_cons, hstep hn]
      rfl
  | @op p q p' m o ops hn _ ih =>
      subst hp hm
      obtain ⟨k, hk⟩ := ih (Pool.caller_move s o e q) rfl
      refine ⟨k + 1, fun s' hs' => hk s' ?_⟩
      rw [hs', List.replicate_succ, System.State.after_cons, hstep hn]
      rfl

theorem walk_signals (x : Task) (site : Site) (r : Pass) (ss : List SemId) :
    Walk cfg prog e (.settle x site (.signals ss) r) m
      (ss.map (.signalSem x.id) ++ [.wakeSignal x.id site, .wakeQueue x.id x.home site])
      (.run r.progress) := by
  induction ss generalizing m with
  | nil => exact .op rfl (.op rfl .refl)
  | cons s ss ih => exact .op rfl ih

/-- The two loops at the end of an arm. -/
theorem walk_settle (x : Task) (site : Site) (r : Pass) :
    Walk cfg prog e (.settle x site (.begin x) r) m (settle x site) (.run r.progress) :=
  walk_signals x site r x.semaphores

/-- The semaphores are tried one after the other. -/
theorem walk_canExecute (x : Task) (r : Pass) {ss : List SemId} (hs : ss.all m.sem = true) :
    Walk cfg prog e (.canExecute x ss r) m [] (.canExecute x [] r) := by
  induction ss with
  | nil => exact .refl
  | cons s ss ih =>
      obtain ⟨hs, hss⟩ := Bool.and_eq_true_iff.mp hs
      exact .tau (by simp [callerNext, hs]) (ih hss)

theorem walk_notRun (x : Task) (r : Pass) (ha : r.all = true) {ss : List SemId}
    (hn : (ss.all m.sem && m.predState x != .pending) = false) :
    Walk cfg prog e (.canExecute x ss r) m [] (.run { r with newTasks := r.newTasks ++ [x] }) := by
  induction ss with
  | nil =>
      have hp : m.predState x = .pending := by
        by_contra hne
        simp [TaskState.bne_pending.mpr hne] at hn
      exact .tau (by simp [callerNext, Pass.notRun, ha, hp]) .refl
  | cons s ss ih =>
      cases hs : m.sem s with
      | false => exact .tau (by simp [callerNext, Pass.notRun, ha, hs]) .refl
      | true => exact .tau (by simp [callerNext, hs]) (ih (by simpa [hs] using hn))

/-- What the caller does from a position, compared with a function of the memory: it gets to
`q` with the same operations, or it stops for the same reason. -/
inductive Simulates (cfg : Specs) (prog : Program V P) (e : CallerId) (q : CallerPc V P) :
    CallerPc V P → Shared V P → Except (Stop P) (List (Op V P)) → Prop where
  | done {p : CallerPc V P} {m : Shared V P} {ops : List (Op V P)} (w : Walk cfg prog e p m ops q) :
      Simulates cfg prog e q p m (.ok ops)
  | blocked {p : CallerPc V P} {m : Shared V P} (h : ∀ c, callerNext cfg prog e c p m = none) :
      Simulates cfg prog e q p m (.error .blocked)
  | unwinds {m : Shared V P} {w : Payload P} :
      Simulates cfg prog e q (.unwind w) m (.error (.unwinds w))
  | tau {p p' : CallerPc V P} {m : Shared V P} {res : Except (Stop P) (List (Op V P))}
      (h : callerNext cfg prog e .proceed p m = some (p', .tau))
      (s : Simulates cfg prog e q p' m res) : Simulates cfg prog e q p m res
  | op {p p' : CallerPc V P} {m : Shared V P} {o : Op V P}
      {res : Except (Stop P) (List (Op V P))}
      (h : callerNext cfg prog e .proceed p m = some (p', o))
      (s : Simulates cfg prog e q p' (o.exec m) res) :
      Simulates cfg prog e q p m (res.map (o :: ·))

theorem Simulates.op_error {p' : CallerPc V P} {o : Op V P} {w : Stop P}
    (h : callerNext cfg prog e .proceed p m = some (p', o))
    (s : Simulates cfg prog e q p' (o.exec m) (.error w)) : Simulates cfg prog e q p m (.error w) :=
  .op h s

/-- Where a caller is that has stopped. -/
def Stop.Holds (cfg : Specs) (prog : Program V P) (e : CallerId) (p : CallerPc V P)
    (m : Shared V P) : Stop P → Prop
  | .blocked => ∀ c, callerNext cfg prog e c p m = none
  | .unwinds w => p = .unwind w

theorem Simulates.walk {res : Except (Stop P) (List (Op V P))}
    (h : Simulates cfg prog e q p m res) (hres : res = .ok ops) : Walk cfg prog e p m ops q := by
  induction h generalizing ops with
  | done w => exact Except.ok.inj hres ▸ w
  | blocked | unwinds => cases hres
  | tau h _ ih => exact .tau h (ih hres)
  | @op p p' m o res h _ ih =>
      cases hr : res with
      | error w => simp [hr, Except.map] at hres
      | ok ops' =>
          rw [hr] at hres
          obtain rfl := Except.ok.inj hres
          exact .op h (ih hr)

theorem Simulates.stops {res : Except (Stop P) (List (Op V P))} {w : Stop P}
    (h : Simulates cfg prog e q p m res) (hres : res = .error w) :
    ∃ ops p', Walk cfg prog e p m ops p' ∧ w.Holds cfg prog e p' (m.execAll ops) := by
  induction h with
  | done => cases hres
  | @blocked p m h =>
      obtain rfl := Except.error.inj hres
      exact ⟨[], p, .refl, h⟩
  | unwinds =>
      obtain rfl := Except.error.inj hres
      exact ⟨[], _, .refl, rfl⟩
  | tau h _ ih =>
      obtain ⟨ops, p', hw, hw'⟩ := ih hres
      exact ⟨ops, p', .tau h hw, hw'⟩
  | @op p p₁ m o res h _ ih =>
      cases hr : res with
      | ok ops' => simp [hr, Except.map] at hres
      | error w' =>
          rw [hr] at hres
          obtain rfl := Except.error.inj hres
          obtain ⟨ops, p', hw, hw'⟩ := ih hr
          exact ⟨o :: ops, p', .op h hw, hw'⟩

/-- User code runs. -/
theorem simulates_body {v : Option V} (r : Pass)
    (hn : callerNext cfg prog e .proceed p m = some (.poll x (.body v) r, .invoke x.id v)) :
    Simulates cfg prog e (.settle x .inlineReady (.begin x) r) p m (body prog x v) := by
  cases hb : prog.body x.id v with
  | error w =>
      have hbody : body prog x v = .error (.unwinds w) := by simp [body, hb]
      rw [hbody]
      have hpanic : callerNext cfg prog e .proceed (.poll x (.body v) r)
          ((Op.invoke x.id v).exec m) = some (.unwind w, .futurePanics x.id) := by
        simp [callerNext, pollNext, hb]
      exact .op_error hn (.op_error hpanic .unwinds)
  | ok y =>
      simp only [body, hb]
      refine .done (.op hn (.op (q := .poll x (.writeBuffer y) r) ?_ (.op rfl (.op rfl .refl))))
      simp [callerNext, pollNext, hb]

/-- A continuation takes the wake-up or the result of its predecessor. -/
theorem advance_cell {k : TaskId} {q : TaskId} (hne : q ≠ k) (st : Stage V P)
    (f : Cell V P → Cell V P) :
    (((Taker.continuation k).advance st (m.modify q f)).cell q) = f (m.cell q) := by
  rw [Taker.advance, Shared.modify_cell_of_ne _ _ hne, Shared.modify_cell_self]

/-- The future of a task does at once what the caller does step by step. -/
theorem simulates_awaitSync (cfg : Specs) (e : CallerId) (r : Pass)
    (hx : x.inner.predecessor ≠ some x.id) :
    Simulates cfg prog e (.settle x .inlineReady (.begin x) r) (.poll x .start r) m
      (awaitSync prog m x) := by
  cases hp : x.inner.predecessor with
  | none =>
      simp only [awaitSync, hp]
      exact simulates_body r (by simp [callerNext, pollNext, hp])
  | some p =>
      have hne : p ≠ x.id := fun he => hx (he ▸ hp)
      have hstart : callerNext cfg prog e .proceed (.poll x .start r) m =
          some (.poll x (.waitSignal p) r, .tau) := by
        simp [callerNext, pollNext, hp]
      refine .tau hstart ?_
      simp only [awaitSync, hp]
      split
      case isFalse hdown =>
        exact .blocked fun c => by simp [callerNext, pollNext, Signal.wait?, hdown]
      case isTrue hready =>
        have hwait : callerNext cfg prog e .proceed (.poll x (.waitSignal p) r) m =
            some (.poll x (.takeState p) r, .waitSignal p (.continuation x.id)) := by
          simp [callerNext, pollNext, Signal.wait?, hready]
        have hcell := advance_cell hne .tookFlag (m := m) fun c =>
          { c with signal := { c.signal with ready := false }
                   takes := c.takes ++ [.continuation x.id] }
        cases hs : (m.cell p).state with
        | ready =>
            have htake : callerNext cfg prog e .proceed (.poll x (.takeState p) r)
                ((Op.waitSignal p (.continuation x.id)).exec m) =
                  some (.poll x (.takeBuffer p) r, .tau) := by
              simp [callerNext, pollNext, Op.exec, hcell, hs, TaskState.take]
            cases hb : (m.cell p).buffer with
            | none =>
                have hpanic : callerNext cfg prog e .proceed (.poll x (.takeBuffer p) r)
                    ((Op.waitSignal p (.continuation x.id)).exec m) =
                      some (.unwind (.message "called `Option::unwrap()` on a `None` value"),
                        .futurePanics x.id) := by
                  simp [callerNext, pollNext, Op.exec, hcell, hb]
                exact .op_error hwait (.tau htake (.op_error hpanic .unwinds))
            | some v =>
                have hmap : ∀ (res : Except (Stop P) (List (Op V P))) (o o' : Op V P),
                    (res.map fun ops => o :: o' :: ops) = (res.map (o' :: ·)).map (o :: ·) := by
                  intro res o o'
                  cases res <;> rfl
                have hbuffer : callerNext cfg prog e .proceed (.poll x (.takeBuffer p) r)
                    ((Op.waitSignal p (.continuation x.id)).exec m) =
                      some (.poll x (.readState p (.returned v)) r,
                        .takeBuffer p (.continuation x.id) v) := by
                  simp [callerNext, pollNext, Op.exec, hcell, hb]
                simp only [hmap]
                refine .op hwait (.tau htake (.op hbuffer (simulates_body r ?_)))
                simp [callerNext, pollNext, Op.exec, advance_cell hne, hs, TaskState.take]
        | panicked q =>
            refine .done (.op hwait (.op (q := .poll x (.readState p (.panicked .unit)) r) ?_ (.tau
              (q := .poll x (.replace (.panicked .unit) (.panicked .unit) .panicked) r) ?_
              (.op rfl .refl))))
            · simp [callerNext, pollNext, Op.exec, hcell, hs, TaskState.take]
            · simp [callerNext, pollNext, Op.exec, advance_cell hne, hs, TaskState.take]
        | cancelled =>
            refine .done (.op hwait (.op (q := .poll x (.readState p .cancelled) r) ?_ (.tau
              (q := .poll x (.replace .cancelled .cancelled .cancelled) r) ?_ (.op rfl .refl))))
            · simp [callerNext, pollNext, Op.exec, hcell, hs, TaskState.take]
            · simp [callerNext, pollNext, Op.exec, advance_cell hne, hs, TaskState.take]
        | pending =>
            have hpanic : callerNext cfg prog e .proceed (.poll x (.takeState p) r)
                ((Op.waitSignal p (.continuation x.id)).exec m) =
                  some (.unwind (.message "Function finished but is still pending!"),
                    .futurePanics x.id) := by
              simp [callerNext, pollNext, Op.exec, hcell, hs, TaskState.take]
            exact .op_error hwait (.op_error hpanic .unwinds)

theorem awaitSync_congr (hx : x.inner.predecessor ≠ some x.id) {m' : Shared V P}
    (h : ∀ t ≠ x.id, m'.cell t = m.cell t) : awaitSync prog m' x = awaitSync prog m x := by
  cases hp : x.inner.predecessor with
  | none => simp [awaitSync, hp]
  | some p =>
      have hcell := h p fun he => hx (he ▸ hp)
      simp only [awaitSync, hp, hcell]

/-- What the future of a task reads is still there when it is polled. -/
theorem awaitSync_polled (e : CallerId) (hx : x.inner.predecessor ≠ some x.id) :
    awaitSync prog (m.execAll [.pass x.id, .newCallerSignal e]) x = awaitSync prog m x := by
  refine awaitSync_congr hx fun t ht => ?_
  exact Shared.modify_cell_of_ne m (fun c => { c with stage := .passed }) ht

/-- A task that is not cancelled and can be executed is polled. -/
theorem walk_execute (cfg : Specs) (prog : Program V P) (e : CallerId) (r : Pass)
    (hp : m.isPanicked x = false) (hc : m.isCancelled x = false)
    (he : m.canExecute x = true) : Walk cfg prog e (.isPanicked x r) m
      [.pass x.id, .newCallerSignal e] (.poll x .start r) := by
  obtain ⟨hpred, hself⟩ := Bool.or_eq_false_iff.mp hc
  obtain ⟨hs, hpend⟩ := Bool.and_eq_true_iff.mp he
  have hne : m.predState x ≠ .pending := TaskState.bne_pending.mp hpend
  have htests : Walk cfg prog e (.isPanicked x r) m [] (.canExecute x x.wait r) :=
    .tau (q := .isCancelled x r) (by simp [callerNext, hp])
      (.tau (q := .isCancelledSelf x r) (by simp [callerNext, hpred])
        (.tau (by simp [callerNext, hself]) .refl))
  have hpass : callerNext cfg prog e .proceed (.canExecute x [] r) m =
      some (.newSignal x r, .pass x.id) := by
    simp [callerNext, hne]
  exact htests.trans ((walk_canExecute x r hs).trans (.op hpass (.op rfl .refl)))

/-- A turn does at once what the caller does step by step. -/
theorem walk_turn (cfg : Specs) (r : Pass) (ha : r.all = true)
    (hx : x.inner.predecessor ≠ some x.id) {o : Option (List (Op V P))}
    (h : turn prog e m x = .ok o) : Walk cfg prog e (.isPanicked x r) m (o.getD [])
      (.run (if o.isSome then r.progress else { r with newTasks := r.newTasks ++ [x] })) := by
  have hturn := turn_cases prog e m x
  rw [h] at hturn
  cases hturn with
  | panicked hp =>
      obtain ⟨q, hq⟩ := TaskState.isPanicked_iff.mp hp
      refine .tau (q := .getPanic x r) (by simp [callerNext, hp]) (.tau
        (q := .replace x (.panicked .unit) .panicked .inlinePanicked r) ?_
        (.op rfl (walk_settle ..)))
      simp [callerNext, hq, TaskState.take]
  | cancelled hp hc =>
      have hsettle : Walk cfg prog e (.replace x .cancelled .cancelled .inlineCancelled r) m
          (.replace x.id .cancelled .cancelled :: settle x .inlineCancelled) (.run r.progress) :=
        .op rfl (walk_settle ..)
      refine .tau (q := .isCancelled x r) (by simp [callerNext, hp]) ?_
      cases hpc : m.predState x == .cancelled with
      | true => exact .tau (by simp [callerNext, hpc]) hsettle
      | false =>
          have hself : ((m.cell x.id).state == .cancelled) = true := by
            simpa [Shared.isCancelled, hpc] using hc
          exact .tau (q := .isCancelledSelf x r) (by simp [callerNext, hpc])
            (.tau (by simp [callerNext, hself]) hsettle)
  | executed hp hc he hawait =>
      have hfuture := (simulates_awaitSync cfg e r hx).walk ((awaitSync_polled e hx).trans hawait)
      exact (walk_execute cfg prog e r hp hc he).trans (hfuture.trans (walk_settle ..))
  | kept hp hc he =>
      obtain ⟨hpred, hself⟩ := Bool.or_eq_false_iff.mp hc
      exact .tau (q := .isCancelled x r) (by simp [callerNext, hp])
        (.tau (q := .isCancelledSelf x r) (by simp [callerNext, hpred])
          (.tau (q := .canExecute x x.wait r) (by simp [callerNext, hself])
            (walk_notRun x r ha he)))

/-- A turn that does not end stops the caller, for the same reason. -/
theorem turn_stops (cfg : Specs) (r : Pass) (hx : x.inner.predecessor ≠ some x.id) {w : Stop P}
    (h : turn prog e m x = .error w) : ∃ ops p', Walk cfg prog e (.isPanicked x r) m ops p' ∧
      w.Holds cfg prog e p' (m.execAll ops) := by
  have hturn := turn_cases prog e m x
  rw [h] at hturn
  cases hturn with
  | stopped hp hc he hawait =>
      obtain ⟨ops, p', hw, hstop⟩ := (simulates_awaitSync cfg e r hx).stops
        ((awaitSync_polled e hx).trans hawait)
      exact ⟨_, p', (walk_execute cfg prog e r hp hc he).trans hw, hstop⟩

/-- A list of tasks none of which is its own predecessor. -/
def Proper (tasks : List Task) : Prop := ∀ x ∈ tasks, x.inner.predecessor ≠ some x.id

theorem proper_tasks (prog : Program V P) (ts : List TaskId) : Proper (ts.map prog.task) := by
  intro x hx hp
  obtain ⟨t, -, rfl⟩ := List.mem_map.mp hx
  exact absurd (prog.predecessor_lt t t hp) (Nat.lt_irrefl t)

/-- What the caller does from a position, compared with what passes do: it gets to a position
that fits the tasks that are kept, or it stops. -/
def Follows (cfg : Specs) (prog : Program V P) (e : CallerId) (p : CallerPc V P) (r : Trace V P)
    (fits : List Task → CallerPc V P → Prop) : Except (Stop P) (List Task × Trace V P) → Prop
  | .ok (kept, r') => ∃ ops q, Walk cfg prog e p r.mem ops q ∧ r' = r.perform ops ∧ fits kept q
  | .error w => ∃ ops q, Walk cfg prog e p r.mem ops q ∧ w.Holds cfg prog e q (r.mem.execAll ops)

section

variable {r : Trace V P} {fits fits' : List Task → CallerPc V P → Prop}
  {res : Except (Stop P) (List Task × Trace V P)}

theorem Follows.walk (h : Follows cfg prog e q (r.perform ops) fits res)
    (w : Walk cfg prog e p r.mem ops q) : Follows cfg prog e p r fits res := by
  cases res with
  | ok res =>
      obtain ⟨ops', q', hw, hr, hfits⟩ := h
      exact ⟨ops ++ ops', q', w.trans hw, by simp [hr, Trace.perform], hfits⟩
  | error s =>
      obtain ⟨ops', q', hw, hstop⟩ := h
      refine ⟨ops ++ ops', q', w.trans hw, ?_⟩
      rw [Shared.execAll_append]
      exact hstop

theorem perform_nil (r : Trace V P) : r.perform [] = r := by
  simp [Trace.perform]

/-- A pass from a position of its inner loop. -/
theorem follows_pass (cfg : Specs) (prog : Program V P) (e : CallerId) {tasks : List Task}
    (hx : Proper tasks) (r : Trace V P) (newTasks : List Task) (ran : Bool) :
    Follows cfg prog e (.run ⟨true, tasks, newTasks, ran, 0⟩) r
      (fun kept q => ∃ ran', q = .run ⟨true, [], newTasks ++ kept, ran', 0⟩)
      (pass prog e tasks r) := by
  induction tasks generalizing r newTasks ran with
  | nil => exact ⟨[], _, .refl, (perform_nil r).symm, ran, by simp⟩
  | cons x tasks ih =>
      have hxs : Proper tasks := fun y hy => hx y (List.mem_cons_of_mem _ hy)
      have hxp := hx x List.mem_cons_self
      have hstart : callerNext cfg prog e .proceed (.run ⟨true, x :: tasks, newTasks, ran, 0⟩)
          r.mem = some (.isPanicked x ⟨true, tasks, newTasks, ran, 0⟩, .tau) := rfl
      cases ht : turn prog e r.mem x with
      | error w =>
          obtain ⟨ops, q, hw, hstop⟩ := turn_stops cfg ⟨true, tasks, newTasks, ran, 0⟩ hxp ht
          have hpass : pass prog e (x :: tasks) r = .error w := by
            simp [pass, Rounds.round, step, ht, Except.map]
          rw [hpass]
          exact ⟨ops, q, .tau hstart hw, hstop⟩
      | ok o =>
          have hturn := walk_turn cfg ⟨true, tasks, newTasks, ran, 0⟩ rfl hxp ht
          cases o with
          | none =>
              have hstep : step prog e r x = .ok none := by simp [step, ht, Except.map]
              have hrest := ih hxs r (newTasks ++ [x]) ran
              rw [pass, Rounds.round_kept hstep]
              have hkeep : Walk cfg prog e _ r.mem [] _ := .tau hstart hturn
              refine Follows.walk ?_ hkeep
              rw [perform_nil]
              cases hres : Rounds.round (step prog e) tasks r with
              | error w => rwa [pass, hres] at hrest
              | ok res =>
                  rw [pass, hres] at hrest
                  obtain ⟨ops, q, hw, hr, ran', rfl⟩ := hrest
                  exact ⟨ops, _, hw, hr, ran', by simp⟩
          | some ops =>
              have hstep : step prog e r x = .ok (some (r.perform ops)) := by
                simp [step, ht, Except.map]
              rw [pass, Rounds.round_settled hstep]
              exact (ih hxs (r.perform ops) newTasks true).walk (.tau hstart hturn)

/-- After a pass that is over, `run_all` begins the next one. -/
theorem walk_end (tasks : List Task) (ran : Bool) (m : Shared V P) :
    Walk cfg prog e (.run ⟨true, [], tasks, ran, 0⟩) m [] (.run (.begin true tasks)) :=
  .tau (by simp [callerNext, Pass.endNext]) .refl

/-- A number of passes. -/
theorem follows_rounds (cfg : Specs) (prog : Program V P) (e : CallerId) (n : Nat)
    {tasks : List Task} (hx : Proper tasks) (r : Trace V P) :
    Follows cfg prog e (.run (.begin true tasks)) r
      (fun kept q => q = .run (.begin true kept)) (Rounds.rounds (step prog e) n tasks r) := by
  induction n generalizing tasks r with
  | zero => exact ⟨[], _, .refl, (perform_nil r).symm, rfl⟩
  | succ n ih =>
      have hpass := follows_pass cfg prog e hx r [] false
      rw [Rounds.rounds]
      cases hp : Rounds.round (step prog e) tasks r with
      | error w => rwa [pass, hp] at hpass
      | ok res =>
          obtain ⟨kept, r'⟩ := res
          have hsub := Rounds.round_sublist hp
          rw [pass, hp] at hpass
          obtain ⟨ops, q, hw, rfl, ran, rfl⟩ := hpass
          have hrest := ih (fun x hx' => hx x (hsub.subset hx')) (r.perform ops)
          have hnext := hw.trans (walk_end ([] ++ kept) ran _)
          rw [List.append_nil] at hnext
          exact hrest.walk hnext

end

/-- The passes are the ones of a caller of the pool that calls `submit_all`, as long as
no other thread moves. -/
theorem passes_caller {s : (pool cfg prog).State} {n : Nat} {ts : List TaskId} {kept : List Task}
    {r : Trace V P} (hs : Pool.caller s e = .run (.begin true (ts.map prog.task)))
    (h : passes prog e n (ts.map prog.task) s.mem = .ok (kept, r)) :
    ∃ k, ∀ s', s' = s.after (List.replicate k (Pool.call e .proceed)) →
      Pool.caller s' e = .run (.begin true kept) ∧ s'.mem = r.mem := by
  have hf := follows_rounds cfg prog e n (proper_tasks prog ts) ⟨s.mem, []⟩
  rw [show Rounds.rounds (step prog e) n (ts.map prog.task) ⟨s.mem, []⟩ = _ from h] at hf
  obtain ⟨ops, q, hw, rfl, rfl⟩ := hf
  exact hw.after hs rfl

/-- If the passes do not end, the caller blocks or unwinds. -/
theorem passes_stop {s : (pool cfg prog).State} {n : Nat} {ts : List TaskId} {w : Stop P}
    (hs : Pool.caller s e = .run (.begin true (ts.map prog.task)))
    (h : passes prog e n (ts.map prog.task) s.mem = .error w) :
    ∃ k, ∀ s', s' = s.after (List.replicate k (Pool.call e .proceed)) →
      w.Holds cfg prog e (Pool.caller s' e) s'.mem := by
  have hf := follows_rounds cfg prog e n (proper_tasks prog ts) ⟨s.mem, []⟩
  rw [show Rounds.rounds (step prog e) n (ts.map prog.task) ⟨s.mem, []⟩ = _ from h] at hf
  obtain ⟨ops, q, hw, hstop⟩ := hf
  obtain ⟨k, hk⟩ := hw.after hs rfl
  refine ⟨k, fun s' hs' => ?_⟩
  obtain ⟨hp, hm⟩ := hk s' hs'
  rw [hp, hm]
  exact hstop

end RunAll

end MVSync
