import MVSync.Pool.Settlement

/-!
# The completion signal as a latch

Handles, controllers, fences and continuations share one `Signal`, and each
`Signal::wait` on it lowers the flag.  So the first wait that returns takes the
wake-up from all the others: from the observers that wait later or ask whether
the task is done, and from the continuation, which blocks its worker.

As long as nobody has taken the flag, the signal is a latch.
-/

namespace MVSync

open Concurrency Pool

variable {V P : Type} {cfg : Specs} {prog : Program V P} {m : Shared V P} {t p : TaskId}

/-- Thread `i` cannot move, whatever the environment chooses. -/
def Pool.Blocked (s : (pool cfg prog).State) (i : Tid) : Prop :=
  ∀ c, (pool cfg prog).next i c (s.pc i) s.mem = none

/-- A step that takes the flag of `t`, by a wait of kind `k`. -/
def Pool.TakesFlag (s : (pool cfg prog).State) (a : (pool cfg prog).Action) (t : TaskId)
    (k : Taker) : Prop :=
  ∃ q, s.next a = some (q, .waitSignal t k)

/-! ## Outside observers -/

/-- The outside observers of `t` are through: none is blocked in a wait, no
asynchronous wait is pending any more, and every query is answered by yes. -/
structure Pool.Latched (s : (pool cfg prog).State) (t : TaskId) : Prop where
  wait : ∀ e k, caller s e = .waitSignal t k → ¬Blocked s (.caller e)
  waitAsync : ∀ e k b, caller s e = .pollSignal t k b → ((s.mem.cell t).signal.poll b e).1 = true
  isDone : s.mem.isDone t = true
  fence : ∀ f, prog.fence f = some t → s.mem.fenceReady prog f = some true

namespace Pool

variable {s s' : (pool cfg prog).State} {a : (pool cfg prog).Action}

/-- The latch is the flag. -/
theorem latched_iff : Latched s t ↔ (s.mem.cell t).signal.ready = true := by
  constructor
  · exact fun h => h.isDone
  · intro hr
    refine ⟨fun e k he hb => ?_, fun e k b _ => by rw [Signal.poll_fst, hr], hr, fun f hf => ?_⟩
    · have hn : callerNext cfg prog e .proceed (caller s e) s.mem = none := hb _
      simp [he, callerNext, Signal.wait?, hr] at hn
    · simp [Shared.fenceReady, hf, hr]

/-- Only a wait takes the flag. -/
theorem takes_of_step (hs : s.step a = some s') (ha : ∀ k, ¬TakesFlag s a t k) :
    (s'.mem.cell t).takes = (s.mem.cell t).takes := by
  obtain ⟨q, o, hn, rfl⟩ := System.State.step_cases hs
  refine (Op.cellStep o s.mem t).takes.resolve_right ?_
  rintro ⟨k, rfl, -⟩
  exact ha k ⟨q, hn⟩

/-- After the wake the flag is up until somebody takes it. -/
theorem Reachable.ready_iff (h : Reachable s) (hw : (s.mem.cell t).wakes ≠ []) :
    (s.mem.cell t).signal.ready = true ↔ (s.mem.cell t).takes = [] := by
  rcases ((h.inv.life.cell t).woken_of_wakes hw).flag with ⟨ht, hr⟩ | ⟨⟨k, ht⟩, hr⟩
  · simp [ht, hr]
  · simp [ht, hr]

/-- The completion signal of a woken task is a latch for its observers in every
run in which no wait on it returns, and exactly until one does. -/
theorem latch :
    (∀ (t : TaskId) (s : (pool cfg prog).State),
      System.ReachVia (fun s a _ => ∀ k, ¬TakesFlag s a t k) (poolInit cfg prog) s →
        (s.mem.cell t).wakes ≠ [] → Latched s t) ∧
      ∀ (t : TaskId) (s : (pool cfg prog).State), Reachable s → (s.mem.cell t).wakes ≠ [] →
        (Latched s t ↔ (s.mem.cell t).takes = []) := by
  have hiff : ∀ (t : TaskId) (s : (pool cfg prog).State), Reachable s →
      (s.mem.cell t).wakes ≠ [] → (Latched s t ↔ (s.mem.cell t).takes = []) :=
    fun t s h hw => latched_iff.trans (h.ready_iff hw)
  refine ⟨fun t s hv hw => (hiff t s hv.reach hw).mpr ?_, hiff⟩
  have init : ((poolInit cfg prog).mem.cell t).takes = [] := rfl
  exact hv.invariant init fun a _ hi hs hok => (takes_of_step hs hok).trans hi

end Pool

set_option maxRecDepth 2000

/-- The chain of two functions, after one controller waited for its end and a
second one began to. -/
def twoObservers : (pool Specs.one successorChain).State :=
  successorRun.after [call 1 (.wait 1), call 1 .proceed, call 2 (.wait 1), call 2 .proceed]

theorem twoObservers_reachable : Reachable twoObservers := .after _ successorRun_reachable

/-- The first observer took the flag, and the second one waits for ever. -/
theorem twoObservers_blocked :
    caller twoObservers 2 = .waitSignal 1 .observer ∧
      (twoObservers.mem.cell 1).wakes = [.workerReady] ∧
        (twoObservers.mem.cell 1).signal.ready = false := by
  decide

/-- The completion signal is no latch. -/
theorem Pool.not_latch :
    ¬∀ (s : (pool Specs.one successorChain).State) t, Reachable s → (s.mem.cell t).wakes ≠ [] →
      Latched s t := by
  intro h
  obtain ⟨-, hw, hr⟩ := twoObservers_blocked
  have hl := h _ 1 twoObservers_reachable (by simp [hw])
  simp [latched_iff.mp hl] at hr

/-- Before anybody waits, the observers of a run are through. -/
theorem Pool.latch_successorRun : Latched successorRun 1 :=
  (latch.2 1 _ successorRun_reachable (by decide)).mpr (by decide)

/-! ## The thread that settles a task -/

/-- A choice for a thread that runs no user code. -/
def Tid.proceed : (i : Tid) → Tid.Input i
  | .dispatcher => ()
  | .worker _ => false
  | .caller _ => .proceed

/-- Thread `i` is in the first loop of the settling site of `x`, with the
semaphores `ss` left. -/
def Pool.Settling (s : (pool cfg prog).State) (i : Tid) (x : Task) (ss : List SemId) : Prop :=
  match i with
  | .dispatcher => ∃ site todo remaining,
      dispatcher s = .settle x site (.signals ss) todo remaining
  | .worker w => ∃ site kept todo, worker s w = .settle x site (.signals ss) kept todo
  | .caller e => ∃ site q, caller s e = .settle x site (.signals ss) q

/-- The completion signal of `t` was not woken, and the thread that settles `t`
is not blocked and goes on to wake it by itself. -/
def Pool.Finishing (s : (pool cfg prog).State) (t : TaskId) : Prop :=
  (s.mem.cell t).wakes = [] ∧ ∃ i, (s.mem.cell t).owner = .thread i ∧
    (∀ c, (pool cfg prog).next i c (s.pc i) s.mem ≠ none) ∧
      ∃ as s', (∀ a ∈ as, a.tid = i) ∧ s.run as = some s' ∧ (s'.mem.cell t).wakes ≠ []

namespace Pool

variable {s s' : (pool cfg prog).State} {a : (pool cfg prog).Action} {i : Tid} {x : Task}

theorem step_eq {i : Tid} {c : Tid.Input i} {q : Tid.Pc V P i} {o : Op V P}
    (hn : (pool cfg prog).next i c (s.pc i) s.mem = some (q, o)) :
    s.step ⟨i, c⟩ = some (s.move i q o) := by
  simp only [System.State.step, System.State.next]
  rw [hn]
  rfl

/-- A thread that signals a semaphore goes on with the next one. -/
theorem Settling.signal {g : SemId} {ss : List SemId} (h : Settling s i x (g :: ss))
    (c : Tid.Input i) : ∃ s', s.step ⟨i, c⟩ = some s' ∧ Settling s' i x ss := by
  cases i with
  | dispatcher =>
      obtain ⟨site, todo, remaining, hp⟩ := h
      have hn : dispatcherNext cfg (dispatcher s) s.mem =
          some (.settle x site (.signals ss) todo remaining, .signalSem x.id g) := by
        rw [hp]
        rfl
      exact ⟨_, step_eq hn, site, todo, remaining, System.State.move_pc_self _ _ _ _⟩
  | worker w =>
      obtain ⟨site, kept, todo, hp⟩ := h
      have hn : workerNext prog w c (worker s w) s.mem =
          some (.settle x site (.signals ss) kept todo, .signalSem x.id g) := by
        rw [hp]
        rfl
      exact ⟨_, step_eq hn, site, kept, todo, System.State.move_pc_self _ _ _ _⟩
  | caller e =>
      obtain ⟨site, q, hp⟩ := h
      have hn : callerNext cfg prog e c (caller s e) s.mem =
          some (.settle x site (.signals ss) q, .signalSem x.id g) := by
        rw [hp]
        rfl
      exact ⟨_, step_eq hn, site, q, System.State.move_pc_self _ _ _ _⟩

/-- A thread that is past the semaphores wakes the completion signal. -/
theorem Settling.wake (h : Settling s i x []) (c : Tid.Input i) :
    ∃ s', s.step ⟨i, c⟩ = some s' ∧ (s'.mem.cell x.id).wakes ≠ [] := by
  have hwakes : ∀ site, (((Op.wakeSignal x.id site).exec s.mem).cell x.id).wakes ≠ [] := by
    simp [Op.exec]
  cases i with
  | dispatcher =>
      obtain ⟨site, todo, remaining, hp⟩ := h
      have hn : dispatcherNext cfg (dispatcher s) s.mem =
          some (.settle x site .wakeQueue todo remaining, .wakeSignal x.id site) := by
        rw [hp]
        rfl
      exact ⟨_, step_eq hn, hwakes site⟩
  | worker w =>
      obtain ⟨site, kept, todo, hp⟩ := h
      have hn : workerNext prog w c (worker s w) s.mem =
          some (.settle x site .wakeQueue kept todo, .wakeSignal x.id site) := by
        rw [hp]
        rfl
      exact ⟨_, step_eq hn, hwakes site⟩
  | caller e =>
      obtain ⟨site, q, hp⟩ := h
      have hn : callerNext cfg prog e c (caller s e) s.mem =
          some (.settle x site .wakeQueue q, .wakeSignal x.id site) := by
        rw [hp]
        rfl
      exact ⟨_, step_eq hn, hwakes site⟩

theorem Settling.run {ss : List SemId} : ∀ {s : (pool cfg prog).State}, Settling s i x ss →
    ∃ as s', (∀ a ∈ as, a.tid = i) ∧ s.run as = some s' ∧ (s'.mem.cell x.id).wakes ≠ [] := by
  induction ss with
  | nil =>
      intro s h
      obtain ⟨s', hs, hw⟩ := h.wake i.proceed
      exact ⟨[⟨i, i.proceed⟩], s', by simp, by simp [System.State.run, hs], hw⟩
  | cons g ss ih =>
      intro s h
      obtain ⟨s₁, hs, h₁⟩ := h.signal i.proceed
      obtain ⟨as, s', has, hr, hw⟩ := ih h₁
      exact ⟨⟨i, i.proceed⟩ :: as, s', by simpa using has, by simp [System.State.run, hs, hr], hw⟩

theorem Settling.next_ne_none {ss : List SemId} (h : Settling s i x ss) (c : Tid.Input i) :
    (pool cfg prog).next i c (s.pc i) s.mem ≠ none := by
  have hstep : ∃ s', s.step ⟨i, c⟩ = some s' := by
    cases ss with
    | nil => exact (h.wake c).imp fun _ h => h.1
    | cons g ss => exact (h.signal c).imp fun _ h => h.1
  obtain ⟨s', hs⟩ := hstep
  obtain ⟨q, o, hn, -⟩ := System.State.step_cases hs
  intro he
  rw [he] at hn
  cases hn

theorem finished_not_mem_fresh {xs : List Task} :
    (x, Stage.finished) ∉ (fresh xs : List (Task × Stage V P)) := by
  simp [fresh]

theorem finished_not_mem_futs {fs : List (Fut V)} :
    (x, Stage.finished) ∉ (futs fs : List (Task × Stage V P)) := by
  intro h
  obtain ⟨⟨y, sus⟩, -, he⟩ := List.mem_map.mp h
  cases sus <;> simp [PollPc.stage] at he

/-- No position of a poll is past the outcome. -/
theorem finished_ne_poll {p : PollPc V P} : p.stage ≠ .finished := by
  cases p <;> simp [PollPc.stage]

theorem settle_stage {site : Site} {sp : SettlePc}
    (h : (sp.stage site : Stage V P) = .finished) : ∃ ss, sp = .signals ss := by
  cases sp with
  | signals ss => exact ⟨ss, rfl⟩
  | wakeQueue => cases h

/-- The positions of the dispatcher when it has a task whose outcome is
written. -/
theorem dispatcher_settle {p : DispatcherPc P}
    (h : (x, Stage.finished) ∈ (p.tasks : List (Task × Stage V P))) :
    ∃ site ss todo remaining, p = .settle x site (.signals ss) todo remaining := by
  cases p with
  | settle y site sp todo remaining =>
      rcases List.mem_cons.mp h with he | hm
      · obtain ⟨rfl, hs⟩ := Prod.mk.inj he
        obtain ⟨ss, rfl⟩ := settle_stage hs.symm
        exact ⟨site, ss, todo, remaining, rfl⟩
      · exact absurd hm finished_not_mem_fresh
  | _ => simp [DispatcherPc.tasks, fresh] at h

/-- The positions of a worker when it has a task whose outcome is written. -/
theorem worker_settle {p : WorkerPc V P} (h : (x, Stage.finished) ∈ p.tasks) :
    (∃ kept todo, p = .readyArm x kept todo) ∨
      ∃ site ss kept todo, p = .settle x site (.signals ss) kept todo := by
  cases p with
  | readyArm y kept todo =>
      rcases List.mem_cons.mp h with he | hm
      · obtain ⟨rfl, -⟩ := Prod.mk.inj he
        exact .inl ⟨kept, todo, rfl⟩
      · exact absurd hm finished_not_mem_futs
  | settle y site sp kept todo =>
      rcases List.mem_cons.mp h with he | hm
      · obtain ⟨rfl, hs⟩ := Prod.mk.inj he
        obtain ⟨ss, rfl⟩ := settle_stage hs.symm
        exact .inr ⟨site, ss, kept, todo, rfl⟩
      · exact absurd hm finished_not_mem_futs
  | poll y p kept todo =>
      rcases List.mem_cons.mp h with he | hm
      · exact absurd (Prod.mk.inj he).2.symm finished_ne_poll
      · exact absurd hm finished_not_mem_futs
  | pendingArm y v kept todo =>
      rcases List.mem_cons.mp h with he | hm
      · cases (Prod.mk.inj he).2
      · exact absurd hm finished_not_mem_futs
  | errArm y q kept todo =>
      rcases List.mem_cons.mp h with he | hm
      · cases (Prod.mk.inj he).2
      · exact absurd hm finished_not_mem_futs
  | exited => cases h
  | _ => exact absurd h finished_not_mem_futs

/-- The positions of a caller when it has a task whose outcome is written. -/
theorem caller_settle {p : CallerPc V P} {l : List (Task × Stage V P)} (hl : p.tasks = some l)
    (h : (x, Stage.finished) ∈ l) : ∃ site ss q, p = .settle x site (.signals ss) q := by
  cases p with
  | settle y site sp q =>
      obtain rfl := Option.some.inj hl
      rcases List.mem_cons.mp h with he | hm
      · obtain ⟨rfl, hs⟩ := Prod.mk.inj he
        obtain ⟨ss, rfl⟩ := settle_stage hs.symm
        exact ⟨site, ss, q, rfl⟩
      · exact absurd hm finished_not_mem_fresh
  | poll y p q =>
      obtain rfl := Option.some.inj hl
      rcases List.mem_cons.mp h with he | hm
      · exact absurd (Prod.mk.inj he).2.symm finished_ne_poll
      · exact absurd hm finished_not_mem_fresh
  | unwind q => cases hl
  | _ =>
      obtain rfl := Option.some.inj hl
      simp [Pass.tasks, fresh] at h

/-- The thread that has a task whose outcome is written, and whose signal is not
woken, is about to settle it. -/
theorem Reachable.finishing (h : Reachable s) (hst : (s.mem.cell t).stage = .finished) :
    Finishing s t := by
  have hc := h.inv.life.cell t
  rw [CellOk, hst] at hc
  have settling : ∀ {i} x ss, (s.mem.cell x.id).owner = .thread i → x.id = t →
      Settling s i x ss → Finishing s t := by
    rintro i x ss ho rfl hs
    exact ⟨hc.1.wakes, i, ho, hs.next_ne_none, hs.run⟩
  obtain ⟨i, ho⟩ := h.inv.places.settling t (by rw [hst]; rfl)
  cases i with
  | dispatcher =>
      obtain ⟨x, rfl, hx⟩ := h.dispatcher.tasks.exists_mem ho
      rw [hst] at hx
      obtain ⟨site, ss, todo, remaining, hp⟩ := dispatcher_settle hx
      exact settling x ss ho rfl ⟨site, todo, remaining, hp⟩
  | worker w =>
      obtain ⟨x, rfl, hx⟩ := (h.worker w).tasks.exists_mem ho
      rw [hst] at hx
      rcases worker_settle hx with ⟨kept, todo, hp⟩ | ⟨site, ss, kept, todo, hp⟩
      · have hn : ∀ pends, workerNext prog w pends (Pool.worker s w) s.mem =
            some (.settle x .workerReady (.begin x) kept todo, .fetchAdd w) := by
          intro pends
          rw [hp]
          rfl
        -- the slot is given back first
        obtain ⟨as, s', has, hr, hw⟩ := Settling.run (i := .worker w) (x := x)
          (s := s.move (.worker w) (.settle x .workerReady (.begin x) kept todo) (.fetchAdd w))
          ⟨.workerReady, kept, todo, System.State.move_pc_self _ _ _ _⟩
        refine ⟨hc.1.wakes, .worker w, ho, fun c => ?_, ⟨.worker w, false⟩ :: as, s',
          by simpa using has, ?_, hw⟩
        · exact fun he => Option.some_ne_none _ ((hn c).symm.trans he)
        · have hs : s.step ⟨.worker w, false⟩ = some (s.move (.worker w)
              (.settle x .workerReady (.begin x) kept todo) (.fetchAdd w)) := step_eq (hn false)
          simp only [System.State.run, hs, Option.bind_some]
          exact hr
      · exact settling x ss ho rfl ⟨site, kept, todo, hp⟩
  | caller e =>
      have hloc := h.caller e
      cases hl : (Pool.caller s e).tasks with
      | none =>
          cases hp : Pool.caller s e with
          | unwind q =>
              have := hloc.unwind q hp t ho
              simp [hst, Stage.settling] at this
          | _ => simp [hp, CallerPc.tasks] at hl
      | some l =>
          obtain ⟨x, rfl, hx⟩ := (hloc.tasks l hl).exists_mem ho
          rw [hst] at hx
          obtain ⟨site, ss, q, hp⟩ := caller_settle hl hx
          exact settling x ss ho rfl ⟨site, q, hp⟩

/-! ## Continuations -/

/-- The continuation `c` was handed to worker `w`, and has not taken the wake-up
of its predecessor. -/
def Handed (s : (pool cfg prog).State) (w : WorkerId) (c : TaskId) : Prop :=
  ((s.mem.cell c).owner = .workerChannel w ∨ (s.mem.cell c).owner = .thread (.worker w)) ∧
    (s.mem.cell c).stage = .passed

/-- The continuation `c` of `p` does not block its worker for good: the signal it
waits for is up, or about to be woken by a thread that is not blocked. -/
structure Served (s : (pool cfg prog).State) (c p : TaskId) : Prop where
  wake : Finishing s p ∨ (s.mem.cell p).signal.ready = true
  unblocked : ∀ w, Polls s (.worker w) c (.waitSignal p) → (s.mem.cell p).wakes ≠ [] →
    ¬Blocked s (.worker w)

theorem Reachable.served_iff (h : Reachable s) {w : WorkerId} {c : TaskId}
    (hc : prog.pred c = some p) (hh : Handed s w c) :
    Served s c p ↔ (s.mem.cell p).takes = [] := by
  have hcell := h.inv.life.cell p
  constructor
  · rintro ⟨hf | hr, -⟩
    · rcases hcell.phase with hu | ⟨-, site, -, hw⟩
      · exact hu.takes
      · simp [hf.1] at hw
    · exact (hcell.woken_of_ready hr).2.1
  · intro ht
    by_cases hw : (s.mem.cell p).wakes = []
    · -- the dispatcher saw the outcome of the predecessor
      have hd := ((h.inv.places.handed c w hh.1) p hc).1
      rw [CellOk] at hcell
      refine ⟨.inl (h.finishing ?_), fun _ _ hne => absurd hw hne⟩
      cases hst : (s.mem.cell p).stage <;> simp [hst, Stage.decided, hw] at hd hcell ⊢
    · have hr := (h.ready_iff hw).mpr ht
      refine ⟨.inr hr, fun v hv _ hb => ?_⟩
      obtain ⟨x, kept, todo, hp, -⟩ := hv
      have hn : workerNext prog v false (Pool.worker s v) s.mem = none := hb false
      simp [hp, workerNext, pollNext, Signal.wait?, hr] at hn

theorem blocked_of_waitSignal {w : WorkerId} {kept todo : List (Fut V)}
    (hp : Pool.worker s w = .poll x (.waitSignal p) kept todo)
    (hr : (s.mem.cell p).signal.ready = false) : Blocked s (.worker w) := by
  intro c
  have hn : workerNext prog w c (Pool.worker s w) s.mem = none := by
    simp [hp, workerNext, pollNext, Signal.wait?, hr]
  exact hn

/-- A predecessor that is waited for by nobody else serves its continuation, in
every run, and exactly as long as nobody has taken its flag. -/
theorem continuation_served :
    (∀ (w : WorkerId) (c p : TaskId) (s : (pool cfg prog).State), prog.pred c = some p →
      System.ReachVia (fun s a _ => ¬TakesFlag s a p .observer) (poolInit cfg prog) s →
        Handed s w c → Served s c p) ∧
      ∀ (w : WorkerId) (c p : TaskId) (s : (pool cfg prog).State), prog.pred c = some p →
        Reachable s → Handed s w c → (Served s c p ↔ (s.mem.cell p).takes = []) := by
  refine ⟨fun w c p s hc hv hh => ?_, fun w c p s hc h hh => h.served_iff hc hh⟩
  refine (Reachable.served_iff hv.reach hc hh).mpr ?_
  have hobs : Taker.observer ∉ (s.mem.cell p).takes := by
    refine hv.invariant (I := fun s => Taker.observer ∉ (s.mem.cell p).takes) ?_ ?_
    · exact List.not_mem_nil
    · intro s s' a _ hi hs hok
      obtain ⟨q, o, hn, rfl⟩ := System.State.step_cases hs
      rcases (Op.cellStep o s.mem p).takes with ht | ⟨k, rfl, ht⟩
      · exact ht.symm ▸ hi
      · have hk : k ≠ .observer := by
          rintro rfl
          exact hok ⟨q, hn⟩
        exact ht.symm ▸ by simpa [hk.symm] using hi
  -- the table lets only observers take the flag before the continuation
  have hlink := (Reachable.inv hv.reach).linked c p hc
  rw [hh.2] at hlink
  exact List.eq_nil_iff_forall_not_mem.mpr fun k hk => hobs (hlink.2 k hk ▸ hk)

end Pool

/-- The chain of two functions, when a controller of the first one waited before
its continuation did. -/
def stolenWakeUp : (pool Specs.one successorChain).State :=
  (poolInit _ _).after <|
    submits 0 [0, 1] ++ turns 17 ++ [call 1 (.wait 0), call 1 .proceed] ++ turns 20

theorem stolenWakeUp_reachable : Reachable stolenWakeUp := .after _ .init

/-- The first task finished and woke its signal, and the worker waits for that
for ever. -/
theorem stolenWakeUp_blocked :
    worker stolenWakeUp 0 = .poll (successorChain.task 1) (.waitSignal 0) [] [] ∧
      (stolenWakeUp.mem.cell 0).wakes = [.workerReady] ∧
        (stolenWakeUp.mem.cell 0).signal.ready = false ∧
          (stolenWakeUp.mem.cell 1).owner = .thread (.worker 0) ∧
            (stolenWakeUp.mem.cell 1).stage = .passed := by
  decide

/-- A continuation can block its worker for good. -/
theorem Pool.continuation_not_served :
    ¬∀ (w : WorkerId) (c p : TaskId) (s : (pool Specs.one successorChain).State),
      successorChain.pred c = some p → Reachable s → Handed s w c → Served s c p := by
  intro h
  obtain ⟨hw, hwakes, hr, ho, hst⟩ := stolenWakeUp_blocked
  have hs := h 0 1 0 _ rfl stolenWakeUp_reachable ⟨.inr ho, hst⟩
  exact hs.unblocked 0 ⟨_, _, _, hw, rfl⟩ (by simp [hwakes]) (blocked_of_waitSignal hw hr)

/-- The continuation of the chain, when it was handed to the worker and nobody
else waited. -/
def handedOver : (pool Specs.one successorChain).State :=
  (poolInit _ _).after (submits 0 [0, 1] ++ turns 24)

theorem Pool.continuation_served_handedOver : Served handedOver 1 0 := by
  have h : Reachable handedOver := .after _ .init
  exact (continuation_served.2 0 1 0 _ rfl h ⟨by decide, by decide⟩).mpr
    (by decide)

end MVSync
