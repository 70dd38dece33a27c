import Mathlib.Logic.Relation
import MVSync.Pool.Start

/-!
# Settling in turn

A task that waits on semaphores is settled after they are signalled, also when
it is skipped: a task that waits for it in turn relies on that.  `Queue::run`
asks `can_execute` first, so it always holds with threads.  `run` and `run_all`
ask `is_panicked` and `is_cancelled` first and `can_execute` last, so they skip a
task before its turn when a semaphore that it waits on is not signalled yet
(`Pool.OutOfTurn`).

In a run without such a step everything that leaves its first stage has had its
turn (`Pool.Turned`), and so a body is invoked after everything that it depends
on through any number of semaphores.
-/

namespace MVSync

open Concurrency Pool

variable {V P : Type} {cfg : Specs} {prog : Program V P} {m : Shared V P} {i : Tid} {t : TaskId}
  {x : Task} {todo remaining : List Task} {st : TaskState P} {f : Finish} {site : Site}
  {op : Op V P}

/-- `t` waits on a semaphore that only `u` signals. -/
def Program.After (prog : Program V P) (t u : TaskId) : Prop :=
  ∃ g ∈ prog.wait t, ∀ v, g ∈ prog.semaphores v → v = u

/-- The operations that settle `t`: its semaphores are signalled, and its
completion signal is woken. -/
def Op.settles (t : TaskId) : Op V P → Prop
  | .signalSem u _ | .wakeSignal u _ => u = t
  | _ => False

theorem Op.Pre.finished_of_settles (hp : op.Pre prog i m) (hs : op.settles t) :
    (m.cell t).stage = .finished := by
  cases op
  case signalSem u g =>
    obtain rfl : u = t := hs
    exact hp.1.2
  case wakeSignal u site =>
    obtain rfl : u = t := hs
    exact hp.1.2
  all_goals exact hs.elim

/-! ## Tasks that are skipped -/

/-- The dispatcher is about to skip a task that it found executable. -/
theorem dispatcherNext_to_replace {d : DispatcherPc P} (hk : d.Knows prog m)
    (h : dispatcherNext cfg d m = some (.replace x st f site todo remaining, op)) :
    Waited prog m x.id ∧ op = .tau := by
  cases dispatcherNext_step h with
  | getPanic _ => exact ⟨hk.1, rfl⟩
  | predCancelled _ => exact ⟨hk.1, rfl⟩
  | selfCancelled _ => exact ⟨hk.1, rfl⟩

theorem settleNext_runs {sp : SettlePc} {sp' : Option SettlePc}
    (h : settleNext x site sp = (sp', op)) : op.runs = false := by
  unfold settleNext at h
  split at h <;> cases h <;> rfl

/-- The dispatcher skips the task at hand. -/
theorem dispatcherNext_replaces {d d' : DispatcherPc P}
    (h : dispatcherNext cfg d m = some (d', .replace t st f)) :
    ∃ x site todo remaining, d = .replace x st f site todo remaining ∧ x.id = t := by
  cases dispatcherNext_step h with
  | replace => exact ⟨_, _, _, _, rfl, rfl⟩
  | settle hs => cases settleNext_runs hs
  | settled hs => cases settleNext_runs hs

/-- The poll of a continuation writes an outcome when it has the result of its
predecessor. -/
theorem pollNext_replaces {pends : Bool} {p : PollPc V P} {r : PollResult V P}
    (h : pollNext prog x pends p m = some (r, .replace t st f)) :
    ∃ r', p = .replace r' st f ∧ x.id = t := by
  cases pollNext_step h with
  | replace => exact ⟨_, rfl, rfl⟩

/-- A caller skips the task at hand, or is in the poll of a continuation. -/
theorem callerNext_replaces {e : CallerId} {c : CallerInput} {p p' : CallerPc V P}
    (h : callerNext cfg prog e c p m = some (p', .replace t st f)) :
    (∃ x site q, p = .replace x st f site q ∧ x.id = t ∧ p' = .settle x site (.begin x) q) ∨
      ∃ x r q, p = .poll x (.replace r st f) q ∧ x.id = t := by
  cases callerNext_step h with
  | replace => exact .inl ⟨_, _, _, rfl, rfl, rfl⟩
  | more hp | pending hp | err hp | ready hp =>
      obtain ⟨r, rfl, rfl⟩ := pollNext_replaces hp
      exact .inr ⟨_, r, _, rfl, rfl⟩
  | settle hs | settled hs => cases settleNext_runs hs

/-- A worker has no task that was not found executable. -/
theorem WorkerPc.stage_ne_fresh {p : WorkerPc V P} {s : Stage V P} (h : (x, s) ∈ p.tasks) :
    s ≠ .fresh := by
  have futs_ne : ∀ {fs : List (Fut V)}, (x, .fresh) ∉ (futs fs : List (Task × Stage V P)) := by
    intro fs hm
    obtain ⟨⟨y, sus⟩, -, he⟩ := List.mem_map.mp hm
    cases sus <;> simp [PollPc.stage] at he
  rintro rfl
  cases p with
  | top fs | check fs | wait fs => exact futs_ne h
  | retain kept todo => exact futs_ne h
  | poll y pc kept todo =>
      rcases List.mem_cons.mp h with he | hm
      · cases pc <;> simp [PollPc.stage] at he
      · exact futs_ne hm
  | settle y site sp kept todo =>
      rcases List.mem_cons.mp h with he | hm
      · cases sp <;> simp [SettlePc.stage] at he
      · exact futs_ne hm
  | exited => cases h
  | _ =>
      rcases List.mem_cons.mp h with he | hm
      · simp at he
      · exact futs_ne hm

namespace Pool

variable {s s' : (pool cfg prog).State} {a : (pool cfg prog).Action}

/-! ## Turns -/

/-- The step skips a task though a semaphore that it waits on is not
signalled. -/
def OutOfTurn (s : (pool cfg prog).State) (a : (pool cfg prog).Action) : Prop :=
  ∃ t st f, Performs s a (.replace t st f) ∧ ¬Waited prog s.mem t

/-- Every step that settles a task comes after the semaphores that the task
waits on. -/
def SettlesInTurn (s : (pool cfg prog).State) : Prop :=
  ∀ a o t, Performs s a o → o.settles t → Waited prog s.mem t

/-- The semaphores of every task that was looked at are signalled. -/
def Turned (s : (pool cfg prog).State) : Prop :=
  ∀ t, (s.mem.cell t).stage ≠ .fresh → Waited prog s.mem t

theorem Turned.step (hi : Turned s) (h : Reachable s) (ha : ¬OutOfTurn s a)
    (hs : s.step a = some s') : Turned s' := by
  intro t ht
  obtain ⟨o, ho, hmem⟩ := mem_of_step hs
  have hpre := h.performs ho
  refine (h.grows hs).waited ?_
  by_cases hf : (s.mem.cell t).stage = .fresh
  · rcases hpre.fresh_cases hf with hf' | ⟨st, f, rfl⟩ | rfl | ⟨w, x, rfl, rfl⟩
    · exact absurd (hmem ▸ hf') ht
    · by_contra hw
      exact ha ⟨t, st, f, ho, hw⟩
    · exact hpre.2
    · exact hpre.2.2.2.1
  · exact hi t hf

theorem Turned.settlesInTurn (hi : Turned s) (h : Reachable s) : SettlesInTurn s := by
  intro a o t ho hset
  refine hi t ?_
  simp [(h.performs ho).finished_of_settles hset]

/-- In a state where every task had its turn, a task whose semaphores are
signalled comes after all that it depends on. -/
theorem Turned.finished (hi : Turned s) (h : Reachable s) {c u : TaskId}
    (hw : Waited prog s.mem c) (hd : Relation.TransGen prog.After c u) :
    (s.mem.cell u).Finished := by
  have one : ∀ {c u}, Waited prog s.mem c → prog.After c u → (s.mem.cell u).Finished := by
    rintro c u hw ⟨g, hg, hu⟩
    obtain ⟨v, hv, hfin⟩ := h.inv.life.signaller (hw g hg)
    exact hu v hv ▸ hfin
  induction hd using Relation.TransGen.head_induction_on with
  | single hcu => exact one hw hcu
  | @head c b hcb _ ih =>
      refine ih (hi b fun hf => ?_)
      have hc := h.inv.life.cell b
      rw [CellOk, hf] at hc
      simpa [Cell.Finished, hc.2.2.1] using one hw hcb

/-! ## With threads -/

/-- The dispatcher is about to skip a task whose semaphores are signalled. -/
theorem Reachable.waited_of_replace (h : Reachable s) {x : Task} {st : TaskState P} {f : Finish}
    {site : Site} {todo remaining : List Task}
    (hd : Pool.dispatcher s = .replace x st f site todo remaining) : Waited prog s.mem x.id := by
  refine h.thread_invariant (i := .dispatcher) (I := fun (p : DispatcherPc P) m =>
    ∀ x st f site todo remaining, p = .replace x st f site todo remaining → Waited prog m x.id)
    (fun _ _ _ _ _ _ hd => by cases hd) ?_ ?_ x st f site todo remaining hd
  · rintro s c p o hr hn - x st f site todo remaining rfl
    have hwaited := (dispatcherNext_to_replace (Reachable.dispatcher hr).knows hn).1
    exact (Reachable.grows hr (System.State.step_of_next (a := dispatch) hn)).waited hwaited
  · intro s s' a p hr _ hs hi x st f site todo remaining hd
    exact (Reachable.grows hr hs).waited (hi x st f site todo remaining hd)

/-- A task is skipped out of turn by inline execution. -/
theorem OutOfTurn.inline (ha : OutOfTurn s a) (h : Reachable s) :
    ∃ e c x st f site q, a = call e c ∧ caller s e = .replace x st f site q ∧
      ¬Waited prog s.mem x.id := by
  obtain ⟨t, st, f, ho, hw⟩ := ha
  -- a continuation that has the result of its predecessor had its turn
  have hf : s.mem.At a.tid t .fresh := by
    refine (h.performs ho).1.resolve_right ?_
    rintro ⟨r, hr⟩
    exact hw (h.inv.life.waited t (by simp [hr.2, Stage.waits]))
  obtain ⟨q, hn⟩ := ho
  obtain ⟨i, c⟩ := a
  cases i with
  | dispatcher =>
      obtain ⟨x, site, todo, remaining, hd, rfl⟩ := dispatcherNext_replaces hn
      exact absurd (h.waited_of_replace hd) hw
  | worker w =>
      obtain ⟨x, rfl, hx⟩ := (h.worker w).tasks.exists_mem hf.1
      rw [hf.2] at hx
      exact absurd rfl (WorkerPc.stage_ne_fresh hx)
  | caller e =>
      rcases callerNext_replaces hn with ⟨x, site, q', hp, rfl, -⟩ | ⟨x, r, q', hp, rfl⟩
      · exact ⟨e, c, x, st, f, site, q', rfl, hp, hw⟩
      · have hloc := h.caller e
        rw [show Pool.caller s e = _ from hp] at hloc
        have hst := (hloc.tasks _ rfl).head_stage
        simp [hf.2, PollPc.stage] at hst

theorem Reachable.not_outOfTurn (hc : cfg.threadCount ≠ 0) (h : Reachable s) :
    ¬OutOfTurn s a := by
  intro ha
  obtain ⟨e, c, x, st, f, site, q, -, hp, -⟩ := ha.inline h
  have hnone := h.pass_eq_none hc e
  simp [hp, CallerPc.pass] at hnone

/-- A signalled semaphore was signalled by a task whose outcome is written. -/
theorem Reachable.signaller (h : Reachable s) (hg : s.mem.sem g = true) :
    ∃ u, g ∈ prog.semaphores u ∧ (s.mem.cell u).stage.decided = true := by
  refine h.invariant (I := fun s => s.mem.sem g = true →
    ∃ u, g ∈ prog.semaphores u ∧ (s.mem.cell u).stage.decided = true) (fun hg => by cases hg) ?_ hg
  intro s s' a hr hi hs _ hg
  have hr : Reachable s := hr
  obtain ⟨o, ho, hmem⟩ := mem_of_step hs
  by_cases hold : s.mem.sem g = true
  · obtain ⟨u, hu, hd⟩ := hi hold
    exact ⟨u, hu, ((hr.grows hs).cell u).decided hd⟩
  · have hsem : (o.exec s.mem).sem g = s.mem.sem g ∨ ∃ u, o = .signalSem u g := Op.sem_eq g
    rcases hsem with he | ⟨u, rfl⟩
    · rw [hmem, he] at hg
      exact absurd hg hold
    · obtain ⟨hat, hu⟩ := hr.performs ho
      refine ⟨u, hu, ((hr.grows hs).cell u).decided ?_⟩
      simp [hat.2, Stage.decided]

/-- With threads, no task is looked at before its turn. -/
theorem Reachable.turned (hc : cfg.threadCount ≠ 0) (h : Reachable s) : Turned s :=
  h.invariant (I := Turned) (fun _ ht => absurd rfl ht)
    fun _ hr hi hs _ => hi.step hr (Reachable.not_outOfTurn hc hr) hs

/-! ## Without threads -/

/-- A task that was skipped out of turn is about to be settled so. -/
theorem OutOfTurn.not_settlesInTurn (ha : OutOfTurn s a) (h : Reachable s)
    (hs : s.step a = some s') : ¬SettlesInTurn s' := by
  obtain ⟨e, c, x, st, f, site, q, rfl, hp, hw⟩ := ha.inline h
  have hn : callerNext cfg prog e c (caller s e) s.mem =
      some (.settle x site (.begin x) q, .replace x.id st f) := by
    rw [hp]
    rfl
  obtain ⟨q', o, hn', rfl⟩ := System.State.step_cases hs
  obtain ⟨rfl, rfl⟩ := Prod.mk.inj (Option.some.inj (hn'.symm.trans hn))
  have hp' : caller (s.move (.caller e) (.settle x site (.begin x) q) (.replace x.id st f)) e =
      .settle x site (.begin x) q := caller_move s _ e _
  intro hset
  have settles : ∀ o, Performs (s.move (.caller e) (.settle x site (.begin x) q)
      (.replace x.id st f)) (call e c) o → ¬o.settles x.id :=
    fun o ho hox => hw (hset _ o x.id ho hox)
  cases hsem : x.semaphores with
  | nil =>
      refine settles (.wakeSignal x.id site) ⟨.settle x site .wakeQueue q, ?_⟩ rfl
      show callerNext cfg prog e c (caller _ e) _ = _
      rw [hp']
      simp only [callerNext, SettlePc.begin, hsem, settleNext]
      rfl
  | cons g gs =>
      refine settles (.signalSem x.id g) ⟨.settle x site (.signals gs) q, ?_⟩ rfl
      show callerNext cfg prog e c (caller _ e) _ = _
      rw [hp']
      simp only [callerNext, SettlePc.begin, hsem, settleNext]
      rfl

/-- Tasks are settled in turn in every run in which none is skipped out of turn:
what a task depends on through any number of semaphores has finished before its
body is invoked.  A step that skips a task out of turn is one after which it is
settled so, and with threads there is none. -/
theorem in_turn :
    (∀ s : (pool cfg prog).State,
      System.ReachVia (fun s a _ => ¬OutOfTurn s a) (poolInit cfg prog) s →
        SettlesInTurn s ∧
          (∀ c u, (s.mem.cell c).invoked ≠ [] → Relation.TransGen prog.After c u →
            (s.mem.cell u).Finished) ∧
          ∀ a s', s.step a = some s' → (SettlesInTurn s' ↔ ¬OutOfTurn s a)) ∧
      (0 < cfg.threadCount → ∀ (s : (pool cfg prog).State) a, Reachable s → ¬OutOfTurn s a) := by
  refine ⟨fun s h => ?_, fun hc s a h => h.not_outOfTurn ?_⟩
  · have hr : Reachable s := h.reach
    have ht : Turned s := h.invariant (I := Turned) (fun t ht => absurd rfl ht)
      fun a hr hi hs ha => hi.step hr.reach ha hs
    refine ⟨ht.settlesInTurn hr, fun c u hinv hd => ?_, fun a s' hs => ?_⟩
    · obtain ⟨v, hv⟩ := List.exists_mem_of_ne_nil _ hinv
      exact ht.finished hr (hr.inv.life.invoked c v hv).2.1 hd
    · constructor
      · intro hset ha
        exact ha.not_settlesInTurn hr hs hset
      · intro ha
        exact (ht.step hr ha hs).settlesInTurn (.step a hr hs trivial)
  · rintro h0
    simp [h0] at hc

end Pool

/-! ## Two runs -/

/-- The test of `OutOfTurn` on the operation. -/
def Op.inTurn (prog : Program V P) (m : Shared V P) : Op V P → Bool
  | .replace t _ _ => (prog.wait t).all m.sem
  | _ => true

theorem Pool.not_outOfTurn_of_op {s : (pool cfg prog).State} {a : (pool cfg prog).Action}
    (h : (match s.next a with
      | some (_, o) => o.inTurn prog s.mem
      | none => true) = true) : ¬OutOfTurn s a := by
  rintro ⟨t, st, f, ⟨q, hn⟩, hw⟩
  rw [hn] at h
  exact hw (List.all_eq_true.mp h)

set_option maxRecDepth 2000

/-- A pool without threads. -/
def Specs.inline : Specs := ⟨0, 1, []⟩

/-- Functions without predecessors, each of which waits on a semaphore that the
one before it signals. -/
def relay : Program Nat Nat where
  inner _ := .fromFunction
  wait t := if t = 0 then [] else [t - 1]
  semaphores t := [t]
  preferredThread _ := none
  notOn _ := []
  home _ := true
  fence _ := none
  body _ _ := .ok 5
  succ _ := none
  succ_iff p t := by simp [Inner.predecessor]
  predecessor_lt t p h := by simp [Inner.predecessor] at h

theorem relay_after (t : TaskId) : relay.After (t + 1) t :=
  ⟨t, by simp [relay], fun v hv => by simpa [relay, eq_comm] using hv⟩

/-- The second function was cancelled and submitted, and `run` is about to settle
it.  The first one was not submitted. -/
def skippedRun : (pool Specs.inline relay).State :=
  (poolInit Specs.inline relay).after (call 1 (.cancel 1) :: call 0 (.submit 1) ::
    List.replicate 5 (call 0 .proceed))

/-- The third function was submitted after that. -/
def overtakenRun : (pool Specs.inline relay).State :=
  skippedRun.after (List.replicate 4 (call 0 .proceed) ++ call 0 (.submit 2) ::
    List.replicate 8 (call 0 .proceed))

/-- A cancelled function is settled before its turn, and the body of the one that
waits for it is invoked before the first one was submitted. -/
theorem Pool.not_in_turn :
    (¬∀ s : (pool Specs.inline relay).State, Reachable s → SettlesInTurn s) ∧
      ¬∀ s : (pool Specs.inline relay).State, Reachable s → ∀ c u,
        (s.mem.cell c).invoked ≠ [] → Relation.TransGen relay.After c u →
          (s.mem.cell u).Finished := by
  refine ⟨fun h => ?_, fun h => ?_⟩
  · have hw := h skippedRun (.after _ .init) (call 0 .proceed) (.signalSem 1 1) 1
      ⟨_, rfl⟩ rfl 0 (by decide)
    exact absurd hw (by decide)
  · have hfin := h overtakenRun (.after _ (.after _ .init)) 2 0 (by decide)
      (.tail (.single (relay_after 1)) (relay_after 0))
    have hnone : (overtakenRun.mem.cell 0).finish = none := by decide
    simp [Cell.Finished, hnone] at hfin

/-- The functions were submitted in order, the second one cancelled. -/
def relayRun : (pool Specs.inline relay).State :=
  (poolInit Specs.inline relay).after (call 1 (.cancel 1) ::
    call 0 (.submitAll [0, 1, 2]) :: List.replicate 40 (call 0 .proceed))

theorem relayRun_inTurn :
    System.ReachVia (fun s a _ => ¬OutOfTurn s a) (poolInit Specs.inline relay) relayRun :=
  .along .init (fun _ _ _ _ => not_outOfTurn_of_op) _ (by decide)

/-- The three functions of a run are settled in turn, and with a thread they
always are. -/
theorem Pool.in_turn_relayRun :
    SettlesInTurn relayRun ∧ (relayRun.mem.cell 0).Finished ∧
      ¬OutOfTurn (poolInit Specs.one relay) dispatch :=
  have h := in_turn.1 relayRun relayRun_inTurn
  ⟨h.1, h.2.1 2 0 (by decide) (.tail (.single (relay_after 1)) (relay_after 0)),
    in_turn.2 (by decide) _ _ .init⟩

end MVSync
