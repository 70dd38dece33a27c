import MVSync.Pool.Chain
import MVSync.Pool.Finality

/-!
# The panic of the dispatcher

`Queue::run` asks `is_panicked` and then calls `get_panic`, and each of the two
takes the lock of the predecessor's state for itself.  A `cancel` of the
predecessor that comes between them leaves `get_panic` with `Cancelled`, and it
panics: the dispatcher dies with the receiver and with every queued task.

Nothing else changes the state of a task that has panicked.  So the guard holds
until the dispatcher reads again, unless a `cancel` overtakes it.
-/

namespace MVSync

open Concurrency Pool

variable {V P : Type} {cfg : Specs} {prog : Program V P} {m : Shared V P} {t p : TaskId}
  {x : Task} {todo remaining : List Task} {op : Op V P}

/-! ## The two reads -/

/-- The dispatcher comes to `get_panic` when `is_panicked` was true. -/
theorem dispatcherNext_getPanic {d : DispatcherPc P}
    (h : dispatcherNext cfg d m = some (.getPanic x todo remaining, op)) :
    m.isPanicked x = true ∧ op = .tau := by
  cases dispatcherNext_step h with
  | isPanicked hp => exact ⟨hp, rfl⟩

/-- The dispatcher panics in a `get_panic` that does not read `Panicked`. -/
theorem dispatcherNext_panicked {d : DispatcherPc P}
    (h : dispatcherNext cfg d m = some (.panicked, op)) :
    ∃ x todo remaining, d = .getPanic x todo remaining ∧ m.isPanicked x = false := by
  cases dispatcherNext_step h with
  | panic hp => exact ⟨_, _, _, rfl, hp⟩

/-- A `get_panic` that does not read `Panicked` panics. -/
theorem dispatcherNext_of_not_isPanicked (h : m.isPanicked x = false) :
    dispatcherNext cfg (.getPanic x todo remaining) m = some (.panicked, .dropDispatcher) := by
  simp only [dispatcherNext]
  cases hs : m.predState x with
  | panicked q => simp [Shared.isPanicked, hs, TaskState.isPanicked] at h
  | _ => rfl

theorem Shared.isPanicked_iff :
    m.isPanicked x = true ↔
      ∃ p q, x.inner.predecessor = some p ∧ (m.cell p).state = .panicked q := by
  unfold Shared.isPanicked Shared.predState
  cases x.inner.predecessor with
  | none => simp [TaskState.isPanicked]
  | some p => simp

namespace Pool

variable {s s' : (pool cfg prog).State} {a : (pool cfg prog).Action}

/-- A `cancel` of the predecessor comes between `is_panicked` and `get_panic`. -/
def Overtakes (s : (pool cfg prog).State) (a : (pool cfg prog).Action) : Prop :=
  ∃ x todo remaining p, dispatcher s = .getPanic x todo remaining ∧
    x.inner.predecessor = some p ∧ Performs s a (.cancel p)

/-! ## The guard holds -/

/-- The guard of `get_panic`. -/
def PanicGuarded (s : (pool cfg prog).State) : Prop :=
  dispatcher s ≠ .panicked ∧
    ∀ x todo remaining, dispatcher s = .getPanic x todo remaining → s.mem.isPanicked x = true

/-- A panicked predecessor stays so while no `cancel` overtakes. -/
theorem Reachable.isPanicked_of_step (h : Reachable s) (hs : s.step a = some s')
    (hd : Pool.dispatcher s = .getPanic x todo remaining) (ha : ¬Overtakes s a)
    (hp : s.mem.isPanicked x = true) : s'.mem.isPanicked x = true := by
  obtain ⟨p, q, hpx, hq⟩ := Shared.isPanicked_iff.mp hp
  refine Shared.isPanicked_iff.mpr ⟨p, q, hpx, ?_⟩
  rw [← hq]
  refine (h.state_eq_iff (by simp [hq]) hs).mpr ⟨?_, ?_⟩
  · rintro ⟨hc, -⟩
    exact ha ⟨x, todo, remaining, p, hd, hpx, hc⟩
  · rintro ⟨hst, -⟩
    simp [hq] at hst

theorem PanicGuarded.step (hi : PanicGuarded s) (h : Reachable s) (ha : ¬Overtakes s a)
    (hs : s.step a = some s') : PanicGuarded s' := by
  obtain ⟨hne, hguard⟩ := hi
  have other : dispatcher s' = dispatcher s → PanicGuarded s' := by
    intro hd
    refine ⟨hd ▸ hne, fun x todo remaining hx => ?_⟩
    rw [hd] at hx
    exact h.isPanicked_of_step hs hx ha (hguard _ _ _ hx)
  rcases step_cases hs with ⟨q, o, rfl, hn, rfl⟩ | ⟨w, pends, q, o, rfl, -, rfl⟩ |
    ⟨e, c, q, o, rfl, -, rfl⟩
  · refine ⟨?_, fun x todo remaining hx => ?_⟩
    · rw [dispatcher_move]
      rintro rfl
      obtain ⟨x, todo, remaining, hd, hp⟩ := dispatcherNext_panicked hn
      simp [hguard _ _ _ hd] at hp
    · rw [dispatcher_move] at hx
      subst hx
      obtain ⟨hp, rfl⟩ := dispatcherNext_getPanic hn
      exact hp
  · exact other (dispatcher_move_worker s o w q)
  · exact other (dispatcher_move_caller s o e q)

/-! ## The guard is lost -/

/-- The task whose panic is read has finished. -/
theorem Reachable.getPanic_decided (h : Reachable s)
    (hd : Pool.dispatcher s = .getPanic x todo remaining) (hp : x.inner.predecessor = some p) :
    (s.mem.cell p).stage.decided = true := by
  refine h.thread_invariant (i := .dispatcher)
    (I := fun (d : DispatcherPc P) m => ∀ x todo remaining p,
      d = .getPanic x todo remaining → x.inner.predecessor = some p →
        (m.cell p).stage.decided = true) (fun _ _ _ _ hd => by cases hd) ?_ ?_ x todo remaining p
      hd hp
  · rintro s c d o hr hn - x todo remaining p rfl hp
    have hn : dispatcherNext cfg (Pool.dispatcher s) s.mem = some (.getPanic x todo remaining, o) :=
      hn
    obtain ⟨hpan, rfl⟩ := dispatcherNext_getPanic hn
    obtain ⟨p', q', hp', hst⟩ := Shared.isPanicked_iff.mp hpan
    obtain rfl := Option.some.inj (hp.symm.trans hp')
    have hlife := (Reachable.inv hr).life.cell p
    exact (hlife.decided_of_state (by simp [hst]) (by simp [hst])).1
  · intro s s' a d hr _ hs hi x todo remaining p hd hp
    exact ((Reachable.grows hr hs).cell p).decided (hi x todo remaining p hd hp)

/-- The predecessor is cancelled for good, and the dispatcher is about to find
it so. -/
def Doomed (s : (pool cfg prog).State) : Prop :=
  ∃ x todo remaining p, dispatcher s = .getPanic x todo remaining ∧
    x.inner.predecessor = some p ∧ (s.mem.cell p).state = .cancelled

theorem Doomed.of_overtakes (ha : Overtakes s a) (hs : s.step a = some s') : Doomed s' := by
  obtain ⟨x, todo, remaining, p, hd, hp, ho⟩ := ha
  obtain ⟨o, ho', hmem⟩ := mem_of_step hs
  obtain rfl := ho.unique ho'
  refine ⟨x, todo, remaining, p, ?_, hp, by simp [hmem, Op.exec]⟩
  rcases step_cases hs with ⟨q, o, rfl, hn, rfl⟩ | ⟨w, pends, q, o, rfl, -, rfl⟩ |
    ⟨e, c, q, o, rfl, -, rfl⟩
  · obtain ⟨q', hq'⟩ := ho
    have hn' : dispatcherNext cfg (dispatcher s) s.mem = some (q', .cancel p) := hq'
    cases dispatcherNext_ofCaller hn'
  · rwa [dispatcher_move_worker]
  · rwa [dispatcher_move_caller]

/-- No other thread saves the dispatcher. -/
theorem Doomed.step (hi : Doomed s) (h : Reachable s) (ha : a.tid ≠ .dispatcher)
    (hs : s.step a = some s') : Doomed s' := by
  obtain ⟨x, todo, remaining, p, hd, hp, hst⟩ := hi
  refine ⟨x, todo, remaining, p, ?_, hp, h.cancelled_of_step (h.getPanic_decided hd hp) hst hs⟩
  rcases step_cases hs with ⟨q, o, rfl, hn, rfl⟩ | ⟨w, pends, q, o, rfl, -, rfl⟩ |
    ⟨e, c, q, o, rfl, -, rfl⟩
  · exact absurd rfl ha
  · rwa [dispatcher_move_worker]
  · rwa [dispatcher_move_caller]

theorem Doomed.panics (hi : Doomed s) : ∃ s', s.step dispatch = some s' ∧
    dispatcher s' = .panicked := by
  obtain ⟨x, todo, remaining, p, hd, hp, hst⟩ := hi
  have hn : s.mem.isPanicked x = false := by
    simp [Shared.isPanicked, Shared.predState, hp, hst, TaskState.isPanicked]
  have hnext : dispatcherNext cfg (dispatcher s) s.mem = some (.panicked, .dropDispatcher) := by
    rw [hd]
    exact dispatcherNext_of_not_isPanicked hn
  refine ⟨s.move .dispatcher .panicked .dropDispatcher, ?_, dispatcher_move s _ _⟩
  exact Option.map_eq_some_iff.mpr ⟨_, hnext, rfl⟩

/-- The dispatcher survives every run in which no `cancel` overtakes it, and
reads a panic in each `get_panic`.  A `cancel` that overtakes it is its end: it
panics at its next step, whatever the other threads do until then. -/
theorem dispatcher_survives :
    (∀ s : (pool cfg prog).State,
      System.ReachVia (fun s a _ => ¬Overtakes s a) (poolInit cfg prog) s → PanicGuarded s) ∧
      ∀ (s s' : (pool cfg prog).State) (a : (pool cfg prog).Action), Reachable s →
        Overtakes s a → s.step a = some s' →
          ∀ s'', System.ReachVia (fun _ a _ => a.tid ≠ .dispatcher) s' s'' →
            ∃ s₁, s''.step dispatch = some s₁ ∧ dispatcher s₁ = .panicked := by
  refine ⟨fun s h => ?_, fun s s' a h ha hs s'' hr => ?_⟩
  · refine h.invariant (I := PanicGuarded) ⟨by simp [dispatcher, poolInit], fun _ _ _ hd => ?_⟩
      fun a hr hi hs ha => hi.step hr.reach ha hs
    cases hd
  · have hs' : Reachable s' := .step a h hs trivial
    refine (hr.invariant (I := Doomed) (.of_overtakes ha hs) ?_).panics
    intro s₁ s₂ b hr hi hs hb
    exact hi.step (hs'.trans hr.reach) hb hs

end Pool

/-! ## Two runs -/

set_option maxRecDepth 2000

/-- The function panicked, and the dispatcher has found its continuation to have
a panicked predecessor. -/
def foundPanicked : (pool Specs.one panicChain).State :=
  (poolInit Specs.one panicChain).after (submits 0 [0, 1] ++ turns 17)

/-- Another thread cancels the function. -/
def overtaken : (pool Specs.one panicChain).State := foundPanicked.after [call 1 (.cancel 0)]

theorem foundPanicked_reachable : Reachable foundPanicked := .after _ .init

/-- The dispatcher of a run panics in `get_panic`. -/
theorem Pool.dispatcher_dies :
    ¬∀ s : (pool Specs.one panicChain).State, Reachable s → PanicGuarded s := by
  intro h
  refine (h (overtaken.after [dispatch]) (.after _ (.after _ foundPanicked_reachable))).1 ?_
  decide

/-- The step is not a `cancel`. -/
def notCancel (s : (pool cfg prog).State) (a : (pool cfg prog).Action) : Bool :=
  match s.next a with
  | some (_, .cancel _) => false
  | _ => true

theorem foundPanicked_guarded :
    System.ReachVia (fun s a _ => ¬Overtakes s a) (poolInit Specs.one panicChain)
      foundPanicked := by
  refine .along (f := notCancel) .init (fun s a s' _ h => ?_) _ (by decide)
  rintro ⟨x, todo, remaining, p, -, -, q, hn⟩
  simp [notCancel, hn] at h

theorem foundPanicked_overtaken :
    Overtakes foundPanicked (call 1 (.cancel 0)) :=
  ⟨panicChain.task 1, [], [], 0, by decide, rfl, .idle, rfl⟩

/-- The dispatcher of a run is safe until the `cancel`, and lost after it. -/
theorem Pool.dispatcher_survives_foundPanicked :
    PanicGuarded foundPanicked ∧
      ∃ s, overtaken.step dispatch = some s ∧ dispatcher s = .panicked :=
  ⟨dispatcher_survives.1 _ foundPanicked_guarded,
    dispatcher_survives.2 _ overtaken _ foundPanicked_reachable foundPanicked_overtaken rfl _ .init⟩

end MVSync
