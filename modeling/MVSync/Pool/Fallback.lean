import Mathlib.Data.Set.Basic
import MVSync.Pool.Sleep

/-!
# When no thread fits

A task whose label no thread carries loses the label, and a task whose `not_on` list
excludes all threads loses the list.  The dispatcher puts it back for another pass,
and that pass comes with the next wake-up only.  If none is on its way the task stays
in the list, although a thread may be free (`Pool.Strands`).

A task that has lost its label may still exclude some threads.  It is put back as well
while the others are busy, and a thread that it excludes may be free then
(`Pool.Shuns`).  Without these two steps a relaxed task that can execute sits in the
list of a dispatcher that sleeps only when no thread is free.
-/

namespace MVSync

open Concurrency Pool

variable {V P : Type} {cfg : Specs} {prog : Program V P} {m m' : Shared V P} {op : Op V P}
  {x : Task} {t : TaskId} {w : WorkerId} {R R' : Set TaskId}

/-! ## Tasks that were relaxed -/

/-- The task that the dispatcher looks for a thread for. -/
def DispatcherPc.seeker : DispatcherPc P → Option Task
  | .isCancelledSelf x _ _ | .select x _ _ _ _ | .freeWorkers x _ _ _ => some x
  | _ => none

/-- The task cannot execute, or no thread is free. -/
def Served (cfg : Specs) (m : Shared V P) (x : Task) : Prop :=
  m.canExecute x = true → ∀ w ∈ cfg.threads, m.freeWorkers w = 0

/-- The tasks of `R` that the dispatcher put back are served. -/
def AllServed (cfg : Specs) (R : Set TaskId) (m : Shared V P) (p : DispatcherPc P) : Prop :=
  ∀ y ∈ p.remaining, y.id ∈ R → Served cfg m y

theorem Served.same (h : Served cfg m x) (hm : SameGuards m m') : Served cfg m' x := by
  simpa only [Served, hm.canExecute, hm.free] using h

theorem AllServed.same {p : DispatcherPc P} (h : AllServed cfg R m p) (hm : SameGuards m m') :
    AllServed cfg R m' p :=
  fun y hy hR => (h y hy hR).same hm

theorem AllServed.of_nil {p : DispatcherPc P} (h : p.remaining = []) : AllServed cfg R m p := by
  simp [AllServed, h]

theorem AllServed.of_over {p : DispatcherPc P} (h : p.over = true) : AllServed cfg R m p := by
  cases p with
  | exited | panicked => exact .of_nil rfl
  | _ => cases h

/-- A task is put back. -/
theorem AllServed.append {remaining : List Task}
    (h : ∀ y ∈ remaining, y.id ∈ R → Served cfg m y) (hx : x.id ∈ R → Served cfg m x) :
    ∀ y ∈ remaining ++ [x], y.id ∈ R → Served cfg m y := by
  intro y hy
  rcases List.mem_append.mp hy with hy | hy
  · exact h y hy
  · rwa [List.mem_singleton.mp hy]

/-- One step of the dispatcher while no wake-up comes. -/
theorem dispatcherNext_served {p p' : DispatcherPc P} (h : AllServed cfg R m p)
    (hcur : Current cfg m p) (ho : p.owes = false)
    (hb : ∀ x, p.subject = some x → op.keepsGuards = false → x.home = true)
    (hr : p.relaxes cfg = true → ∀ w ∈ cfg.threads, m.freeWorkers w = 0)
    (hf : ∀ x w todo remaining, p = .freeWorkers x w todo remaining → x.id ∈ R →
      m.freeWorkers w = 0 → ∀ v ∈ cfg.threads, m.freeWorkers v = 0)
    (ht : ∀ w ∈ p.targets, w ∈ cfg.threads) (hk : p.Loc prog m)
    (hn : dispatcherNext cfg p m = some (p', op)) :
    p'.owes = true ∨ AllServed cfg R (op.exec m) p' := by
  cases dispatcherNext_step hn with
  | recv | received => exact .inr (.of_nil rfl)
  | exit | panic => exact .inr (.of_over rfl)
  | tryRecv | emptied | wake => exact .inr (.of_nil rfl)
  | sleep | next | signalled | executable | isPanicked | notPanicked | getPanic | predCancelled
  | predNotCancelled | selfCancelled | noPreference | preferred | select | selected | free =>
      exact .inr h
  | unsignalled hg =>
      have hx := hk.not_canExecute hg
      exact .inr (.append h fun _ he => absurd he (by simp [hx]))
  | pending hp =>
      have hx := Shared.not_canExecute_of_pending hp
      exact .inr (.append h fun _ he => absurd he (by simp [hx]))
  | noLabel _ hl hw =>
      have hbusy := hr (by simp [DispatcherPc.relaxes, hl, hw])
      exact .inr (.append h fun _ _ => hbusy)
  | noThread => exact .inr (.append h fun _ _ => hr rfl)
  | busy hw =>
      have hzero := UInt32.le_zero_iff.mp (UInt32.not_lt.mp hw)
      exact .inr (.append h fun hR _ => hf _ _ _ _ rfl hR hzero)
  | replace => exact .inl (hb _ rfl rfl)
  | settle | settled =>
      cases hg : op.keepsGuards with
      | true => exact .inr (AllServed.same h (Op.sameGuards hg))
      | false => simp [DispatcherPc.owes, hb _ rfl hg] at ho
  | send => exact .inr (AllServed.same h (Op.sameGuards rfl))
  | @fetchSub w =>
      refine .inr fun y hy hR hex => ?_
      -- the thread that takes the task was free
      have hzero := h y hy hR hex w (ht w List.mem_cons_self)
      have hpos : 0 < m.freeWorkers w := hcur.seen
      rw [hzero] at hpos
      exact absurd hpos (by decide)
  | wakeWorker => exact .inr (AllServed.same h (Op.sameGuards rfl))

/-! ## Every relaxed task is looked at -/

namespace Pool

variable {s s' : (pool cfg prog).State} {a : (pool cfg prog).Action}

/-- The dispatcher drops the label of `t`, which no thread carries, or clears its `not_on`
list, which excludes every thread. -/
def Relaxes (s : (pool cfg prog).State) (a : (pool cfg prog).Action) (t : TaskId) : Prop :=
  a.tid = .dispatcher ∧ (dispatcher s).relaxes cfg = true ∧
    ∃ x, (dispatcher s).seeker = some x ∧ x.id = t

/-- The dispatcher puts back a task of `R` as the thread that it found for it is busy,
although some thread has a free slot and no wake-up comes. -/
def Shuns (R : Set TaskId) (s : (pool cfg prog).State) (a : (pool cfg prog).Action) : Prop :=
  a.tid = .dispatcher ∧
    (∃ x w todo remaining, dispatcher s = .freeWorkers x w todo remaining ∧ x.id ∈ R ∧
      s.mem.freeWorkers w = 0) ∧
    ¬WakeComes s ∧ ∃ w ∈ cfg.threads, 0 < s.mem.freeWorkers w

/-- The states that the pool reaches without `cancel` when every step meets `ok`, with the
tasks that were relaxed on the way. -/
inductive RelaxRun
    (ok : Set TaskId → (pool cfg prog).State → (pool cfg prog).Action → Prop) :
    Set TaskId → (pool cfg prog).State → Prop where
  | init : RelaxRun ok ∅ (poolInit cfg prog)
  | step {R : Set TaskId} {s s' : (pool cfg prog).State} (a : (pool cfg prog).Action)
      (h : RelaxRun ok R s) (hs : s.step a = some s') (hc : cancels a = false) (ha : ok R s a) :
      RelaxRun ok (R ∪ {t | Relaxes s a t}) s'

/-- No relaxed task is put back while a thread is free and no wake-up comes, and every
change is announced. -/
structure Retries (R : Set TaskId) (s : (pool cfg prog).State) (a : (pool cfg prog).Action) :
    Prop where
  strands : ¬Strands s a
  shuns : ¬Shuns R s a
  announced : ¬Unannounced s a

theorem RelaxRun.reachable
    {ok : Set TaskId → (pool cfg prog).State → (pool cfg prog).Action → Prop}
    (h : RelaxRun ok R s) : Reachable s := by
  induction h with
  | init => exact .init
  | step a _ hs _ _ ih => exact .step a ih hs trivial

/-- Either a wake-up comes to the dispatcher, or what it has read is true, and the relaxed
tasks are served. -/
def Attentive (R : Set TaskId) (s : (pool cfg prog).State) : Prop :=
  WakeComes s ∨ Current cfg s.mem (dispatcher s) ∧ AllServed cfg R s.mem (dispatcher s)

/-- While a task is relaxed without need to strand it, no thread is free. -/
theorem Attentive.relax (h : Attentive R s) (hst : ¬Strands s a) :
    Attentive (R ∪ {t | Relaxes s a t}) s := by
  by_cases hw : WakeComes s
  · exact .inl hw
  obtain ⟨hcur, hall⟩ := h.resolve_left hw
  refine .inr ⟨hcur, fun y hy hR hex w hv => ?_⟩
  rcases hR with hR | ⟨ha, hrel, -⟩
  · exact hall y hy hR hex w hv
  · by_contra hfree
    exact hst ⟨ha, hrel, hw, w, hv, UInt32.pos_iff_ne_zero.mpr hfree⟩

theorem Attentive.step (hc : cfg.threadCount ≠ 0) (h : Attentive R s) (hr : Reachable s)
    (ha : cancels a = false) (hok : Retries R s a) (hs : s.step a = some s') :
    Attentive (R ∪ {t | Relaxes s a t}) s' := by
  refine WakeComes.or_step
    (Q := fun m p => Current cfg m p ∧ AllServed cfg (R ∪ {t | Relaxes s a t}) m p)
    (fun _ _ hp => ⟨.of_over hp, .of_over hp⟩)
    (fun _ _ _ => ⟨.of_top (by simp), .of_nil rfl⟩)
    (fun _ _ _ hq hm => ⟨hq.1.same hm, hq.2.same hm⟩) hc hr ha hok.announced ?_
    (h.relax hok.strands) hs
  rintro q o rfl hn hw
  obtain ⟨hcur, hall⟩ := (h.relax hok.strands).resolve_left hw
  obtain ⟨hq, ho, hb, hrel⟩ := quiet hw hok.announced hok.strands hn
  rcases dispatcherNext_current hcur hq ho hb hrel hr.dispatcher hn with hp | hcur'
  · exact .inl hp
  · refine (dispatcherNext_served hall hcur ho hb hrel ?_ hr.targets hr.dispatcher hn).imp_right
      fun hall' => ⟨hcur', hall'⟩
    intro x w todo remaining hd hR hzero v hv
    have hR : x.id ∈ R := by
      refine hR.resolve_right ?_
      rintro ⟨-, hrel', -⟩
      rw [hd] at hrel'
      cases hrel'
    by_contra hfree
    exact hok.shuns ⟨rfl, ⟨x, w, todo, remaining, hd, hR, hzero⟩, hw, v, hv,
      UInt32.pos_iff_ne_zero.mpr hfree⟩

/-- The dispatcher sleeps on a task of `R` that can execute while a thread is free, and no
wake-up comes. -/
def StrandsRelaxed (R : Set TaskId) (s : (pool cfg prog).State) : Prop :=
  ∃ tasks, dispatcher s = .wait tasks ∧ s.mem.queueSignal.ready = false ∧ (∀ i, ¬Owes s i) ∧
    ∃ x ∈ tasks, x.id ∈ R ∧ s.mem.canExecute x = true ∧ ∃ w ∈ cfg.threads, 0 < s.mem.freeWorkers w

/-- The dispatcher is at the last task of its pass. -/
def LastTurn (s : (pool cfg prog).State) : Prop :=
  match dispatcher s with
  | .isCancelledSelf _ todo _ | .select _ _ _ todo _ | .freeWorkers _ _ todo _ => todo = []
  | _ => False

/-- While no wake-up comes, the dispatcher goes to sleep when it has put the last task
back. -/
theorem sleeps (y : Task) (remaining : List Task) (hw : ¬WakeComes s) :
    ∃ s'', (s.move .dispatcher (DispatcherPc.scan [] (remaining ++ [y])) .tau).step dispatch =
        some s'' ∧ s''.mem = s.mem ∧ dispatcher s'' = .wait (remaining ++ [y]) ∧
      s''.mem.queueSignal.ready = false ∧ ∀ i, ¬Owes s'' i := by
  have hnext : dispatcherNext cfg (DispatcherPc.scan [] (remaining ++ [y])) s.mem =
      some (.wait (remaining ++ [y]), .tau) := by
    obtain ⟨x, xs, he⟩ := List.exists_cons_of_ne_nil (List.concat_ne_nil y remaining)
    rw [he]
    rfl
  refine ⟨_, System.State.step_of_next (next_dispatch (dispatcher_move ..) hnext), rfl,
    dispatcher_move .., Bool.eq_false_iff.mpr fun hq => hw (.inl hq), fun i hi => ?_⟩
  refine hw (.inr ⟨i, ?_⟩)
  cases i with
  | dispatcher => simp [Owes, dispatch, DispatcherPc.owes] at hi
  | worker w => simpa [Owes, dispatch] using hi
  | caller e => simpa [Owes, dispatch] using hi

/-- A task that the dispatcher looks for a thread for can execute. -/
theorem Reachable.canExecute_of_seeker (h : Reachable s)
    (hx : (Pool.dispatcher s).seeker = some x) : s.mem.canExecute x = true := by
  have hloc := h.dispatcher
  have known : ∀ {st : Stage V P} {l : List (Task × Stage V P)},
      s.mem.Has prog (.thread .dispatcher) ((x, st) :: l) →
        Waited prog s.mem x.id ∧ PredFinished prog s.mem x.id → s.mem.canExecute x = true := by
    intro st l htasks ⟨hwait, hpred⟩
    have hb : prog.Built x := htasks.head_built
    refine Bool.and_eq_true_iff.mpr ⟨List.all_eq_true.mpr (hb.wait ▸ hwait), ?_⟩
    refine TaskState.bne_pending.mpr ?_
    unfold Shared.predState
    split
    · simp
    case h_2 p hp =>
      obtain ⟨f, -, hdec⟩ := (h.inv.life.cell p).decided_of_stage (hpred p (hb.pred ▸ hp)).1
      exact hdec.state_ne_pending
  generalize Pool.dispatcher s = p at hx hloc
  cases p with
  | isCancelledSelf | select | freeWorkers =>
      obtain rfl := Option.some.inj hx
      exact known hloc.tasks hloc.knows
  | _ => cases hx

theorem RelaxRun.no_cancel
    {ok : Set TaskId → (pool cfg prog).State → (pool cfg prog).Action → Prop}
    (h : RelaxRun ok R s) : ¬SomeCancel s.mem := by
  induction h with
  | init => exact noCancel_init
  | step a _ hs hc _ ih => exact noCancel_step ih hc hs

/-- The dispatcher puts back a task that can execute and was relaxed, though a thread is
free and no wake-up comes, at the end of its pass: then it goes to sleep on it. -/
theorem strandsRelaxed_of_lastTurn {ok : Set TaskId → (pool cfg prog).State →
      (pool cfg prog).Action → Prop} (h : RelaxRun ok R s) (ha : Strands s a ∨ Shuns R s a)
    (hl : LastTurn s) (hs : s.step a = some s') :
    ∃ s'', s'.step dispatch = some s'' ∧ StrandsRelaxed (R ∪ {t | Relaxes s a t}) s'' := by
  have hr : Reachable s := h.reachable
  -- the task is put back, and nothing else changes
  have back : ∀ {x y : Task} {remaining : List Task}, (dispatcher s).seeker = some x →
      s.mem.canExecute y = s.mem.canExecute x →
        s' = s.move .dispatcher (DispatcherPc.scan [] (remaining ++ [y])) .tau →
          y.id ∈ R ∪ {t | Relaxes s a t} → ¬WakeComes s →
            (∃ w ∈ cfg.threads, 0 < s.mem.freeWorkers w) →
              ∃ s'', s'.step dispatch = some s'' ∧
                StrandsRelaxed (R ∪ {t | Relaxes s a t}) s'' := by
    rintro x y remaining hx hex rfl hR hw hfree
    obtain ⟨s'', hstep, hmem, hd, hq, ho⟩ := sleeps y remaining hw
    refine ⟨s'', hstep, _, hd, hq, ho, y, by simp, hR, ?_, by rwa [hmem]⟩
    rw [hmem, hex]
    exact hr.canExecute_of_seeker hx
  have htid : a.tid = .dispatcher := ha.elim And.left And.left
  rcases step_cases hs with ⟨q, o, rfl, hn, hs'⟩ | ⟨w, b, q, o, rfl, -, -⟩ | ⟨e, c, q, o, rfl, -, -⟩
  case inr.inl => cases htid
  case inr.inr => cases htid
  have hlast := hl
  unfold LastTurn at hlast
  rcases ha with ⟨-, hrel, hw, hfree⟩ | ⟨-, ⟨x, w, todo, remaining, hd, hR, hzero⟩, hw, hfree⟩
  · have hin : ∀ {x}, (dispatcher s).seeker = some x → x.id ∈ {t | Relaxes s dispatch t} :=
      fun hx => ⟨rfl, hrel, _, hx, rfl⟩
    generalize hd : dispatcher s = p at *
    cases p with
    | isCancelledSelf x todo remaining =>
        obtain rfl : todo = [] := hlast
        cases dispatcherNext_step hn with
        | selfCancelled hst => exact absurd (hr.inv.life.cancelled x.id hst) h.no_cancel
        | preferred _ hl' hw' => simp [DispatcherPc.relaxes, hl', hw'] at hrel
        | noLabel =>
            exact back (y := x.removePreferredThread) rfl rfl hs' (.inr (hin (x := x) rfl)) hw hfree
        | noPreference _ hnone => simp [DispatcherPc.relaxes, hnone] at hrel
    | select x best left todo remaining =>
        obtain rfl : todo = [] := hlast
        cases dispatcherNext_step hn with
        | select => cases best <;> cases hrel
        | selected => cases hrel
        | noThread =>
            exact back (y := x.clearNotOn) rfl rfl hs' (.inr (hin (x := x) rfl)) hw hfree
    | _ => cases hrel
  · rw [hd] at hlast hn
    obtain rfl : todo = [] := hlast
    cases dispatcherNext_step hn with
    | free hpos =>
        rw [hzero] at hpos
        exact absurd hpos (by decide)
    | busy => exact back (by rw [hd]; rfl) rfl hs' (.inl hR) hw hfree

/-- Without `cancel`, a task that was relaxed and can execute sits in the list of a
dispatcher that sleeps only while no thread is free, in every run in which no relaxed task
is put back while a thread is free and no wake-up comes.  If one is, at the end of a
pass, the dispatcher goes to sleep on it. -/
theorem fallback_awake :
    (∀ R (s : (pool cfg prog).State), RelaxRun Retries R s → ¬StrandsRelaxed R s) ∧
      ∀ R (s s' : (pool cfg prog).State) a, RelaxRun (fun _ _ _ => True) R s →
        Strands s a ∨ Shuns R s a → LastTurn s → s.step a = some s' →
          ∃ s'', s'.step dispatch = some s'' ∧ StrandsRelaxed (R ∪ {t | Relaxes s a t}) s'' := by
  refine ⟨fun R s h => ?_, fun R s s' a h => strandsRelaxed_of_lastTurn h⟩
  rintro ⟨tasks, hd, hq, ho, x, hx, hR, hex, w, hv, hfree⟩
  have hc : cfg.threadCount ≠ 0 := by
    intro hc
    simp [Specs.threads, hc] at hv
  have hinv : Attentive R s := by
    clear hd hq ho hx hR hex hfree
    induction h with
    | init => exact .inr ⟨.of_top fun _ => rfl, .of_nil rfl⟩
    | step a h hs hca hok ih => exact ih.step hc h.reachable hca hok hs
  have hw : ¬WakeComes s := by
    rintro (hw | ⟨i, hi⟩)
    · simp [hq] at hw
    · exact ho i hi
  obtain ⟨-, hall⟩ := hinv.resolve_left hw
  rw [hd] at hall
  rw [hall x hx hR hex w hv] at hfree
  exact absurd hfree (by decide)

end Pool

/-! ## Two runs -/

/-- The dispatcher never sleeps on a task whose constraints it has relaxed and that can
execute, while some thread has a free slot. -/
def Pool.FallbackServes (cfg : Specs) (prog : Program V P) : Prop :=
  ∀ R (s : (pool cfg prog).State), RelaxRun (fun _ _ _ => True) R s → ¬StrandsRelaxed R s

/-- A schedule of steps that meet `ok`. -/
theorem Pool.RelaxRun.along
    {ok : Set TaskId → (pool cfg prog).State → (pool cfg prog).Action → Prop}
    {f : (pool cfg prog).State → (pool cfg prog).Action → Bool}
    (hf : ∀ R s a, Reachable s → f s a = true → cancels a = false ∧ ok R s a) :
    ∀ {R : Set TaskId} {s : (pool cfg prog).State} (as : List (pool cfg prog).Action),
      RelaxRun ok R s → s.along f as = true → ∃ R', R ⊆ R' ∧ RelaxRun ok R' (s.after as)
  | R, _, [], h, _ => ⟨R, Set.Subset.refl R, h⟩
  | R, s, a :: as, h, hall => by
      obtain ⟨ha, has⟩ := Bool.and_eq_true_iff.mp hall
      rw [System.State.after_cons]
      cases hs : s.step a with
      | none =>
          rw [hs] at has
          exact RelaxRun.along hf as h has
      | some s' =>
          rw [hs] at has
          obtain ⟨hc, hok⟩ := hf R s a h.reachable ha
          obtain ⟨R', hR, h'⟩ := RelaxRun.along hf as (h.step a hs hc hok) has
          exact ⟨R', Set.Subset.trans Set.subset_union_left hR, h'⟩

/-- A pool with one worker on a labelled thread. -/
def Specs.cpu : Specs := ⟨1, 1, ["cpu"]⟩

/-- Functions that prefer a thread that does not exist, and exclude some. -/
def misplaced (notOn : List Label) : Program Nat Nat :=
  { single with preferredThread := fun _ => some "gpu", notOn := fun _ => notOn }

set_option maxRecDepth 4000

/-- No `cancel`, and the dispatcher neither relaxes a constraint nor looks at a thread
while that is free and its signal is not up. -/
def retries (s : (pool Specs.cpu prog).State) (a : (pool Specs.cpu prog).Action) : Bool :=
  !cancels a && (s.mem.queueSignal.ready || s.mem.freeWorkers 0 == 0 ||
    match dispatcher s with
    | .freeWorkers _ w _ _ => w == 0
    | p => !p.relaxes Specs.cpu)

theorem Pool.retries_of_test (hhome : ∀ t, prog.home t = true) (R : Set TaskId)
    (s : (pool Specs.cpu prog).State) (a : (pool Specs.cpu prog).Action) (hr : Reachable s)
    (hf : retries s a = true) : cancels a = false ∧ Retries R s a := by
  simp only [retries, Bool.and_eq_true, Bool.or_eq_true, Bool.not_eq_true', beq_iff_eq] at hf
  obtain ⟨ha, hf⟩ := hf
  have hthread : ∀ w ∈ Specs.cpu.threads, w = 0 := by decide
  refine ⟨ha, ?_, ?_, not_unannounced hhome hr⟩
  · rintro ⟨-, hrel, hw, w, hv, hfree⟩
    obtain rfl := hthread w hv
    rcases hf with (hready | hzero) | hpos
    · exact hw (.inl hready)
    · simp [hzero] at hfree
    · split at hpos
      case h_1 hd => simp [hd, DispatcherPc.relaxes] at hrel
      case h_2 => simp [hrel] at hpos
  · rintro ⟨-, ⟨x, w, todo, remaining, hd, -, hzero⟩, hw, v, hv, hfree⟩
    obtain rfl := hthread v hv
    rcases hf with (hready | hzero') | hpos
    · exact hw (.inl hready)
    · simp [hzero'] at hfree
    · simp only [hd, beq_iff_eq] at hpos
      simp [← hpos, hzero] at hfree

/-- Two functions are submitted, and the worker does not begin.  The dispatcher has sent
the first one, and is about to drop the label of the second one. -/
def crowding : (pool Specs.cpu (misplaced [])).State :=
  (poolInit _ _).after (submits 0 [0, 1] ++ List.replicate 25 dispatch)

/-- The second function has lost its label, -/
def unlabelled : (pool Specs.cpu (misplaced [])).State := crowding.after [dispatch]

/-- and the dispatcher sleeps on it. -/
def crowded : (pool Specs.cpu (misplaced [])).State := unlabelled.after (List.replicate 4 dispatch)

theorem crowded_run : ∃ R, 1 ∈ R ∧ RelaxRun Retries R crowded := by
  have hinit : RelaxRun Retries ∅ (poolInit Specs.cpu (misplaced [])) := .init
  obtain ⟨R, -, h⟩ := RelaxRun.along (retries_of_test fun _ => rfl)
    (submits 0 [0, 1] ++ List.replicate 25 dispatch) hinit (by decide)
  have hs : crowding.step dispatch = some unlabelled := rfl
  have hok := (retries_of_test (fun _ => rfl) R crowding dispatch h.reachable (by decide)).2
  obtain ⟨R', hR, h'⟩ := RelaxRun.along (retries_of_test fun _ => rfl)
    (List.replicate 4 dispatch) (h.step dispatch hs rfl hok) (by decide)
  exact ⟨R', hR (.inr ⟨rfl, by decide, _, rfl, rfl⟩), h'⟩

/-- The dispatcher sleeps on the second function, and the thread is busy. -/
theorem Pool.fallback_awake_crowded :
    (∃ x, dispatcher crowded = .wait [x] ∧ crowded.mem.canExecute x = true) ∧
      ∃ R, 1 ∈ R ∧ ¬StrandsRelaxed R crowded := by
  refine ⟨⟨((misplaced []).task 1).removePreferredThread, by decide, by decide⟩, ?_⟩
  obtain ⟨R, hR, h⟩ := crowded_run
  exact ⟨R, hR, fallback_awake.1 R crowded h⟩

/-- A function that prefers a thread that does not exist, and excludes the only thread.
The dispatcher is about to drop the label. -/
def stranding : (pool Specs.cpu (misplaced ["cpu"])).State :=
  (poolInit _ _).after (submits 0 [0] ++ List.replicate 5 dispatch)

/-- It has dropped the label, -/
def dropped : (pool Specs.cpu (misplaced ["cpu"])).State := stranding.after [dispatch]

/-- and has cleared the list in the second pass, which came with the wake-up of the submit
call. -/
def stranded : (pool Specs.cpu (misplaced ["cpu"])).State :=
  dropped.after (List.replicate 10 dispatch)

theorem stranded_eq :
    stranded = (poolInit _ _).after (submits 0 [0] ++ List.replicate 16 dispatch) := by
  simp only [stranded, dropped, stranding, ← System.State.after_append]
  rfl

theorem stranded_run : ∃ R, 0 ∈ R ∧ RelaxRun (fun _ _ _ => True) R stranded := by
  have hf : ∀ (R : Set TaskId) (s : (pool Specs.cpu (misplaced ["cpu"])).State)
      (a : (pool Specs.cpu (misplaced ["cpu"])).Action), Reachable s → (!cancels a) = true →
        cancels a = false ∧ True :=
    fun _ _ _ _ h => ⟨by simpa using h, trivial⟩
  obtain ⟨R, -, h⟩ := RelaxRun.along hf (submits 0 [0] ++ List.replicate 5 dispatch) .init
    (by decide)
  have hs : stranding.step dispatch = some dropped := rfl
  obtain ⟨R', hR, h'⟩ := RelaxRun.along hf (List.replicate 10 dispatch)
    (h.step dispatch hs rfl trivial) (by decide)
  exact ⟨R', hR (.inr ⟨rfl, by decide, _, rfl, rfl⟩), h'⟩

/-- The dispatcher sleeps on a function that it could send to the only thread, which is
free. -/
theorem Pool.not_fallback_serves : ¬∀ (cfg : Specs) (prog : Program Nat Nat),
    FallbackServes cfg prog := by
  intro h
  obtain ⟨R, hR, hrun⟩ := stranded_run
  refine h Specs.cpu (misplaced ["cpu"]) R stranded hrun ⟨_, rfl, by decide, ?_, _,
    List.mem_cons_self, hR, by decide, 0, by decide, by decide⟩
  rw [stranded_eq]
  exact not_owes_after _ (by decide) (by decide) (by decide)

end MVSync
