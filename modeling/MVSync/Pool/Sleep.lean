import MVSync.Pool.Cancel
import MVSync.Pool.Finality
import MVSync.Pool.Placement
import MVSync.Pool.Slots

/-!
# The dispatcher does not sleep on work

The dispatcher looks at its tasks one by one, with many separate reads, while
the other threads go on.  What it has read stays true as long as no wake-up is
on its way to it (`Current`): nobody changes a state, a semaphore, a counter or
the channel without waking the dispatcher afterwards.  So either a wake-up comes,
or the dispatcher put every task back for a reason that still holds
(`Pool.Awake`).

Two kinds of steps break this, and are excluded by name: a change for a task of
another `MVSync` (`Pool.Unannounced`), and a task that is put back because a
constraint of it was just relaxed (`Pool.Strands`).
-/

namespace MVSync

open Concurrency Pool

variable {V P : Type} {cfg : Specs} {prog : Program V P} {m m' : Shared V P} {op : Op V P}
  {x : Task} {w : WorkerId}

/-! ## What the dispatcher reads -/

/-- What the dispatcher reads is the same. -/
structure SameGuards (m m' : Shared V P) : Prop where
  sem : m'.sem = m.sem
  free : m'.freeWorkers = m.freeWorkers
  channel : m'.channel = m.channel
  state : ∀ t, (m'.cell t).state = (m.cell t).state

/-- The operations that change nothing the dispatcher reads. -/
def Op.keepsGuards : Op V P → Bool
  | .writeReady _ | .replace _ _ _ | .cancel _ | .signalSem _ _ | .recv | .fetchSub _
  | .fetchAdd _ | .send _ | .replacePanicked _ _ _ | .dropDispatcher => false
  | _ => true

theorem Op.sameGuards (h : op.keepsGuards = true) : SameGuards m (op.exec m) := by
  have hstate : ∀ t, ((op.exec m).cell t).state = (m.cell t).state := by
    intro t
    rcases (Op.cellStep op m t).state with hs | rfl | rfl | ⟨st, f, rfl⟩ | ⟨q, w, rfl⟩
    · exact hs
    all_goals cases h
  cases op <;> simp only [Op.keepsGuards, Bool.false_eq_true] at h
  case waitSignal t k => cases k <;> exact ⟨rfl, rfl, rfl, hstate⟩
  case takeResult t k r => cases k <;> exact ⟨rfl, rfl, rfl, hstate⟩
  case takeBuffer t k v => cases k <;> exact ⟨rfl, rfl, rfl, hstate⟩
  case recvWorker w =>
    simp only [Op.exec] at hstate ⊢
    split
    · exact ⟨rfl, rfl, rfl, fun _ => rfl⟩
    case h_2 x c hc =>
      simp only [hc] at hstate
      exact ⟨rfl, rfl, rfl, hstate⟩
  all_goals exact ⟨rfl, rfl, rfl, hstate⟩

namespace SameGuards

theorem predState (h : SameGuards m m') (x : Task) : m'.predState x = m.predState x := by
  unfold Shared.predState
  split
  · rfl
  · exact h.state _

theorem canExecute (h : SameGuards m m') (x : Task) : m'.canExecute x = m.canExecute x := by
  simp only [Shared.canExecute, h.sem, h.predState]

theorem isPanicked (h : SameGuards m m') (x : Task) : m'.isPanicked x = m.isPanicked x := by
  simp only [Shared.isPanicked, h.predState]

end SameGuards

/-- A poll changes what the dispatcher reads in its last step only. -/
theorem pollNext_guards {pends : Bool} {p : PollPc V P} {r : PollResult V P}
    (h : pollNext prog x pends p m = some (r, op)) : r = .ready ∨ op.keepsGuards = true := by
  cases pollNext_step h with
  | writeReady | silent | replace => exact .inl rfl
  | _ => exact .inr rfl

/-- The task that the dispatcher settles. -/
def DispatcherPc.subject : DispatcherPc P → Option Task
  | .replace x _ _ _ _ _ | .settle x _ _ _ _ => some x
  | _ => none

/-- The task that the worker polls or settles. -/
def WorkerPc.subject : WorkerPc V P → Option Task
  | .poll x _ _ _ | .pendingArm x _ _ _ | .errArm x _ _ _ | .readyArm x _ _
  | .settle x _ _ _ _ => some x
  | _ => none

theorem DispatcherPc.mem_tasks_of_subject {p : DispatcherPc P} (h : p.subject = some x) :
    ∃ st, (x, st) ∈ (p.tasks : List (Task × Stage V P)) := by
  cases p with
  | replace | settle =>
      cases h
      exact ⟨_, List.mem_cons_self⟩
  | _ => cases h

theorem WorkerPc.mem_tasks_of_subject {p : WorkerPc V P} (h : p.subject = some x) :
    ∃ st, (x, st) ∈ p.tasks := by
  cases p with
  | poll | pendingArm | errArm | readyArm | settle =>
      cases h
      exact ⟨_, List.mem_cons_self⟩
  | _ => cases h

/-- A worker that changes what the dispatcher reads owes it a wake-up, if the task is
one of its `MVSync`. -/
theorem workerNext_guards {pends : Bool} {p p' : WorkerPc V P}
    (hb : ∀ x, p.subject = some x → op.keepsGuards = false → x.home = true)
    (h : workerNext prog w pends p m = some (p', op)) :
    p.owes = true ∨ p'.owes = true ∨ op.keepsGuards = true := by
  cases ho : op.keepsGuards with
  | true => exact .inr (.inr rfl)
  | false =>
      cases workerNext_step h with
      | readyArm | settle | settled => exact .inl (hb _ rfl ho)
      | ready | pendingCancelled | errArm => exact .inr (.inl (hb _ rfl ho))
      | more hp | pending hp | err hp =>
          have hk := (pollNext_guards hp).resolve_left (by simp)
          rw [ho] at hk
          cases hk
      | _ => cases ho

/-- A caller that changes what the dispatcher reads owes it a wake-up, or
cancels. -/
theorem callerNext_guards {e : CallerId} {c : CallerInput} {p p' : CallerPc V P}
    (hp : p.pass = none) (h : callerNext cfg prog e c p m = some (p', op)) :
    p'.owes = true ∨ (∃ t, op = .cancel t) ∨ op.keepsGuards = true := by
  cases callerNext_step h with
  | cancel => exact .inr (.inl ⟨_, rfl⟩)
  | send => exact .inl rfl
  | _ => first | exact .inr (.inr rfl) | cases hp

/-! ## What the dispatcher has read -/

/-- The dispatcher has nothing to do for `x`: it cannot execute, or its
predecessor did not panic and no thread that it may be sent to is free. -/
def Stuck (cfg : Specs) (m : Shared V P) (x : Task) : Prop :=
  m.canExecute x = true →
    m.isPanicked x = false ∧ ∀ w ∈ cfg.eligible x, m.freeWorkers w = 0

/-- The tasks that the dispatcher put back. -/
def DispatcherPc.remaining : DispatcherPc P → List Task
  | .wait xs => xs
  | .scan _ remaining | .fetchSub _ _ remaining | .wakeWorker _ _ remaining
  | .canExecute _ _ _ remaining | .isPanicked _ _ remaining | .getPanic _ _ remaining
  | .isCancelled _ _ remaining | .isCancelledSelf _ _ remaining
  | .replace _ _ _ _ _ remaining | .select _ _ _ _ remaining
  | .freeWorkers _ _ _ remaining | .send _ _ _ remaining
  | .settle _ _ _ _ remaining => remaining
  | .top _ | .exited | .panicked => []

/-- The dispatcher is about to empty the submission channel, or left its loop. -/
def DispatcherPc.drains : DispatcherPc P → Bool
  | .top (_ :: _) | .exited | .panicked => true
  | _ => false

/-- What the dispatcher has read for the task at hand. -/
def DispatcherPc.Seen (cfg : Specs) (m : Shared V P) : DispatcherPc P → Prop
  | .isCancelled x _ _ | .isCancelledSelf x _ _ => m.isPanicked x = false
  | .select x best left _ _ =>
      m.isPanicked x = false ∧ x.preferredThread = none ∧
        ∃ read, cfg.candidates x = read ++ left ∧ BestOf m.freeWorkers read best
  | .freeWorkers x w _ _ =>
      m.isPanicked x = false ∧ ∀ v ∈ cfg.eligible x, m.freeWorkers v ≤ m.freeWorkers w
  | .send _ w _ _ | .fetchSub w _ _ => 0 < m.freeWorkers w
  | _ => True

/-- What the dispatcher has read is still true. -/
structure Current (cfg : Specs) (m : Shared V P) (p : DispatcherPc P) : Prop where
  channel : p.drains = false → m.channel = []
  stuck : ∀ y ∈ p.remaining, Stuck cfg m y
  seen : p.Seen cfg m

theorem Stuck.same (h : Stuck cfg m x) (hm : SameGuards m m') : Stuck cfg m' x := by
  simpa only [Stuck, hm.canExecute, hm.isPanicked, hm.free] using h

theorem DispatcherPc.Seen.same {p : DispatcherPc P} (h : p.Seen cfg m) (hm : SameGuards m m') :
    p.Seen cfg m' := by
  cases p with
  | isCancelled x => exact (hm.isPanicked x).trans h
  | isCancelledSelf x => exact (hm.isPanicked x).trans h
  | select | freeWorkers | send | fetchSub =>
      simpa only [DispatcherPc.Seen, hm.isPanicked, hm.free] using h
  | _ => trivial

/-- What the other threads do not change stays true. -/
theorem Current.same {p : DispatcherPc P} (h : Current cfg m p) (hm : SameGuards m m') :
    Current cfg m' p :=
  ⟨fun hp => hm.channel.trans (h.channel hp), fun y hy => (h.stuck y hy).same hm, h.seen.same hm⟩

/-- With an empty list there is nothing to have read but the channel. -/
theorem Current.of_top {xs : List Task} (h : xs = [] → m.channel = []) :
    Current cfg m (.top xs) := by
  refine ⟨fun hd => ?_, fun y hy => absurd hy List.not_mem_nil, trivial⟩
  cases xs with
  | nil => exact h rfl
  | cons x xs => cases hd

theorem Current.of_over {p : DispatcherPc P} (h : p.over = true) : Current cfg m p := by
  cases p with
  | exited | panicked =>
      refine ⟨fun hd => ?_, fun y hy => absurd hy List.not_mem_nil, trivial⟩
      simp [DispatcherPc.drains] at hd
  | _ => cases h

/-- A task that could be sent to a free worker is not stuck, so taking a slot
leaves the stuck tasks stuck. -/
theorem Stuck.fetchSub (h : Stuck cfg m x) (hw : 0 < m.freeWorkers w) :
    Stuck cfg ((Op.fetchSub w).exec m) x := by
  intro hc
  obtain ⟨hp, hfree⟩ := h hc
  refine ⟨hp, fun v hv => ?_⟩
  have hne : v ≠ w := by
    rintro rfl
    rw [hfree v hv] at hw
    exact absurd hw (by decide)
  simpa [Op.exec, hne] using hfree v hv

theorem Stuck.of_not_canExecute (h : m.canExecute x = false) : Stuck cfg m x := by
  simp [Stuck, h]

/-- A task is put back. -/
theorem Stuck.append {remaining : List Task} (h : ∀ y ∈ remaining, Stuck cfg m y)
    (hx : Stuck cfg m x) : ∀ y ∈ remaining ++ [x], Stuck cfg m y := by
  intro y hy
  rcases List.mem_append.mp hy with hy | hy
  · exact h y hy
  · rwa [List.mem_singleton.mp hy]

/-- A task with a semaphore that is not signalled cannot execute. -/
theorem DispatcherPc.Loc.not_canExecute {g : SemId} {ss : List SemId} {todo remaining : List Task}
    (h : (DispatcherPc.canExecute x (g :: ss) todo remaining).Loc prog m) (hg : m.sem g = false) :
    m.canExecute x = false := by
  obtain ⟨past, hss, -⟩ := h.knows
  have hmem : g ∈ x.wait := by simp [h.tasks.head_built.wait, hss]
  refine Bool.eq_false_iff.mpr fun he => Bool.eq_false_iff.mp hg ?_
  exact List.all_eq_true.mp (Bool.and_eq_true_iff.mp he).1 g hmem

/-- A task whose predecessor is pending cannot execute. -/
theorem Shared.not_canExecute_of_pending (h : m.predState x = .pending) :
    m.canExecute x = false :=
  Bool.eq_false_iff.mpr fun he => TaskState.bne_pending.mp (Bool.and_eq_true_iff.mp he).2 h

/-- The dispatcher is about to drop a label that no thread carries, or to clear a
`not_on` list that excludes all threads. -/
def DispatcherPc.relaxes (cfg : Specs) : DispatcherPc P → Bool
  | .isCancelledSelf x _ _ => x.preferredThread.any fun l => (cfg.findLabel l).isNone
  | .select _ none [] _ _ => true
  | _ => false

/-- A task for which no thread has a free slot is stuck. -/
theorem Stuck.of_busy (hp : m.isPanicked x = false)
    (hbusy : ∀ w ∈ cfg.threads, m.freeWorkers w = 0) : Stuck cfg m x :=
  fun _ => ⟨hp, fun w hw => hbusy w (Specs.mem_threads_of_eligible hw)⟩

/-- One step of the dispatcher while no wake-up comes. -/
theorem dispatcherNext_current {p p' : DispatcherPc P} (h : Current cfg m p)
    (hq : m.queueSignal.ready = false) (ho : p.owes = false)
    (hb : ∀ x, p.subject = some x → op.keepsGuards = false → x.home = true)
    (hr : p.relaxes cfg = true → ∀ w ∈ cfg.threads, m.freeWorkers w = 0) (hk : p.Loc prog m)
    (hn : dispatcherNext cfg p m = some (p', op)) :
    p'.owes = true ∨ Current cfg (op.exec m) p' := by
  obtain ⟨hch, hst, hseen⟩ := h
  cases dispatcherNext_step hn with
  | recv hc =>
      rw [hch rfl] at hc
      cases hc
  | exit | panic => exact .inr (.of_over rfl)
  | tryRecv => exact .inr (.of_top (by simp))
  | received hc => exact .inr ⟨fun _ => hc, List.forall_mem_nil _, trivial⟩
  | emptied => exact .inr (.of_top fun _ => hch rfl)
  | sleep | next | signalled | executable | isPanicked | getPanic | predCancelled
  | selfCancelled => exact .inr ⟨fun _ => hch rfl, hst, trivial⟩
  | unsignalled hg =>
      have hx := hk.not_canExecute hg
      exact .inr ⟨fun _ => hch rfl, .append hst (.of_not_canExecute hx), trivial⟩
  | pending hp =>
      have hx := Shared.not_canExecute_of_pending hp
      exact .inr ⟨fun _ => hch rfl, .append hst (.of_not_canExecute hx), trivial⟩
  | notPanicked hp => exact .inr ⟨fun _ => hch rfl, hst, hp⟩
  | predNotCancelled => exact .inr ⟨fun _ => hch rfl, hst, hseen⟩
  | preferred _ hl' hw =>
      refine .inr ⟨fun _ => hch rfl, hst, hseen, ?_⟩
      rw [Specs.eligible_of_some hl', hw]
      simp
  | @noLabel x _ _ _ _ hl' hw =>
      have hbusy := hr (by simp [DispatcherPc.relaxes, hl', hw])
      have hx : Stuck cfg m x.removePreferredThread := .of_busy hseen hbusy
      exact .inr ⟨fun _ => hch rfl, .append hst hx, trivial⟩
  | noPreference _ hnone => exact .inr ⟨fun _ => hch rfl, hst, hseen, hnone, [], rfl, rfl⟩
  | replace => exact .inl (hb _ rfl rfl)
  | settle | settled =>
      cases hg : op.keepsGuards with
      | true => exact .inr (Current.same ⟨fun _ => hch rfl, hst, trivial⟩ (Op.sameGuards hg))
      | false => simp [DispatcherPc.owes, hb _ rfl hg] at ho
  | @select _ _ w =>
      obtain ⟨hp, hnone, read, hc, hb⟩ := hseen
      exact .inr ⟨fun _ => hch rfl, hst, hp, hnone, read ++ [w], by simp [hc], hb.maxByKey w⟩
  | selected =>
      obtain ⟨hp, hnone, read, hc, -, rfl, hall⟩ := hseen
      rw [List.append_nil] at hc
      refine .inr ⟨fun _ => hch rfl, hst, hp, ?_⟩
      rw [Specs.eligible_of_none hnone, hc]
      exact hall
  | @noThread x =>
      have hx : Stuck cfg m x.clearNotOn := .of_busy hseen.1 (hr rfl)
      exact .inr ⟨fun _ => hch rfl, .append hst hx, trivial⟩
  | free hw => exact .inr ⟨fun _ => hch rfl, hst, hw⟩
  | @busy x w _ _ hw =>
      obtain ⟨hp, hall⟩ := hseen
      have hzero : m.freeWorkers w = 0 := by
        rw [← UInt32.toNat_inj]
        have := UInt32.lt_iff_toNat_lt.not.mp hw
        simpa using this
      have hx : Stuck cfg m x := fun _ => ⟨hp, fun v hv => by
        have := hall v hv
        rw [hzero] at this
        exact UInt32.le_zero_iff.mp this⟩
      exact .inr ⟨fun _ => hch rfl, .append hst hx, trivial⟩
  | send => exact .inr (Current.same ⟨fun _ => hch rfl, hst, hseen⟩ (Op.sameGuards rfl))
  | fetchSub => exact .inr ⟨fun _ => hch rfl, fun y hy => (hst y hy).fetchSub hseen, trivial⟩
  | wakeWorker => exact .inr (Current.same ⟨fun _ => hch rfl, hst, trivial⟩ (Op.sameGuards rfl))
  | wake hready =>
      rw [hready] at hq
      cases hq

/-! ## The dispatcher is awake -/

/-- The dispatcher sleeps on some tasks only. -/
theorem dispatcherNext_to_wait {p : DispatcherPc P} {xs : List Task}
    (h : dispatcherNext cfg p m = some (.wait xs, op)) : xs ≠ [] := by
  cases dispatcherNext_step h with
  | sleep => exact List.cons_ne_nil _ _

namespace Pool

variable {s s' : (pool cfg prog).State} {a : (pool cfg prog).Action}

theorem Reachable.wait_ne_nil (h : Reachable s) {xs : List Task}
    (hd : Pool.dispatcher s = .wait xs) : xs ≠ [] := by
  refine h.pc_invariant (i := .dispatcher)
    (I := fun p : DispatcherPc P => ∀ xs, p = .wait xs → xs ≠ []) (by rintro _ ⟨⟩) ?_ xs hd
  rintro c p p' o m hn - xs rfl
  exact dispatcherNext_to_wait hn

/-- The task that a thread settles, or may settle next. -/
def subject (s : (pool cfg prog).State) : Tid → Option Task
  | .dispatcher => (dispatcher s).subject
  | .worker w => (worker s w).subject
  | .caller _ => none

/-- A thread changes what the dispatcher reads for a task of another `MVSync`, whose
signal it wakes instead, while no wake-up comes. -/
def Unannounced (s : (pool cfg prog).State) (a : (pool cfg prog).Action) : Prop :=
  ¬WakeComes s ∧ ∃ o x, Performs s a o ∧ o.keepsGuards = false ∧ subject s a.tid = some x ∧
    x.home = false

/-- The dispatcher relaxes a constraint of a task, and puts the task back, although some
thread has a free slot and no wake-up comes. -/
def Strands (s : (pool cfg prog).State) (a : (pool cfg prog).Action) : Prop :=
  a.tid = .dispatcher ∧ (dispatcher s).relaxes cfg = true ∧ ¬WakeComes s ∧
    ∃ w ∈ cfg.threads, 0 < s.mem.freeWorkers w

/-- A rule for what the dispatcher has made sure of.  If it holds whenever the
dispatcher takes a wake-up and is kept by its steps as long as no wake-up comes, then
it holds or a wake-up comes. -/
theorem WakeComes.or_step {Q : Shared V P → DispatcherPc P → Prop}
    (hover : ∀ m p, p.over = true → Q m p) (htop : ∀ m x xs, Q m (.top (x :: xs)))
    (hsame : ∀ m m' p, Q m p → SameGuards m m' → Q m' p) (hc : cfg.threadCount ≠ 0)
    (hr : Reachable s) (ha : cancels a = false) (hu : ¬Unannounced s a)
    (hdispatch : ∀ q o, a = dispatch → dispatcherNext cfg (dispatcher s) s.mem = some (q, o) →
      ¬WakeComes s → q.owes = true ∨ Q (o.exec s.mem) q)
    (h : WakeComes s ∨ Q s.mem (dispatcher s)) (hs : s.step a = some s') :
    WakeComes s' ∨ Q s'.mem (dispatcher s') := by
  by_cases hw : WakeComes s
  · rcases hw.step hr hs with hw | hover' | ⟨xs, hd, hd'⟩
    · exact .inl hw
    · exact .inr (hover _ _ hover')
    · obtain ⟨y, ys, rfl⟩ := List.exists_cons_of_ne_nil (hr.wait_ne_nil hd)
      exact .inr (hd' ▸ htop _ y ys)
  · have hQ := h.resolve_left hw
    rcases step_cases hs with ⟨q, o, rfl, hn, rfl⟩ | ⟨v, pends, q, o, rfl, hn, rfl⟩ |
      ⟨e, c, q, o, rfl, hn, rfl⟩
    · rcases hdispatch q o rfl hn hw with hp | hp
      · exact .inl (.inr ⟨.dispatcher, by simpa [Owes] using hp⟩)
      · exact .inr (by rwa [dispatcher_move])
    · have hb : ∀ x, (worker s v).subject = some x → o.keepsGuards = false → x.home = true := by
        intro x hx ho
        by_contra hx'
        exact hu ⟨hw, o, x, ⟨q, hn⟩, ho, hx, Bool.eq_false_iff.mpr hx'⟩
      rcases workerNext_guards hb hn with hp | hp | hp
      · exact absurd (.inr ⟨.worker v, hp⟩) hw
      · exact .inl (.inr ⟨.worker v, by simpa [Owes] using hp⟩)
      · refine .inr ?_
        rw [dispatcher_move_worker]
        exact hsame _ _ _ hQ (Op.sameGuards hp)
    · rcases callerNext_guards (hr.pass_eq_none hc e) hn with hp | ⟨t, rfl⟩ | hp
      · exact .inl (.inr ⟨.caller e, by simpa [Owes] using hp⟩)
      · obtain rfl := callerNext_cancel hn
        cases ha
      · refine .inr ?_
        rw [dispatcher_move_caller]
        exact hsame _ _ _ hQ (Op.sameGuards hp)

/-- Either a wake-up comes to the dispatcher, or what it has read is true. -/
def Awake (s : (pool cfg prog).State) : Prop := WakeComes s ∨ Current cfg s.mem (dispatcher s)

/-- What is known of a step of the dispatcher while no wake-up comes. -/
theorem quiet (hw : ¬WakeComes s) (hu : ¬Unannounced s dispatch) (hst : ¬Strands s dispatch)
    {q : DispatcherPc P} {o : Op V P}
    (hn : dispatcherNext cfg (dispatcher s) s.mem = some (q, o)) :
    s.mem.queueSignal.ready = false ∧ (dispatcher s).owes = false ∧
      (∀ x, (dispatcher s).subject = some x → o.keepsGuards = false → x.home = true) ∧
      ((dispatcher s).relaxes cfg = true → ∀ w ∈ cfg.threads, s.mem.freeWorkers w = 0) := by
  refine ⟨Bool.eq_false_iff.mpr fun hq => hw (.inl hq),
    Bool.eq_false_iff.mpr fun ho => hw (.inr ⟨.dispatcher, ho⟩), fun x hx ho => ?_,
    fun hrel w hv => ?_⟩
  · by_contra hx'
    exact hu ⟨hw, o, x, ⟨q, hn⟩, ho, hx, Bool.eq_false_iff.mpr hx'⟩
  · by_contra hfree
    exact hst ⟨rfl, hrel, hw, w, hv, UInt32.pos_iff_ne_zero.mpr hfree⟩

/-- The dispatcher stays awake. -/
theorem Awake.step (hc : cfg.threadCount ≠ 0) (h : Awake s) (hr : Reachable s)
    (ha : cancels a = false) (hu : ¬Unannounced s a) (hst : ¬Strands s a)
    (hs : s.step a = some s') : Awake s' := by
  refine WakeComes.or_step (Q := Current cfg) (fun _ _ => .of_over) (fun _ _ _ => .of_top (by simp))
    (fun _ _ _ hq hm => hq.same hm) hc hr ha hu ?_ h hs
  rintro q o rfl hn hw
  obtain ⟨hq, ho, hb, hrel⟩ := quiet hw hu hst hn
  exact dispatcherNext_current (h.resolve_left hw) hq ho hb hrel hr.dispatcher hn

theorem Reachable.built_of_subject (hr : Reachable s) {i : Tid} (h : subject s i = some x) :
    prog.Built x := by
  cases i with
  | dispatcher =>
      obtain ⟨st, hx⟩ := DispatcherPc.mem_tasks_of_subject (V := V) h
      exact hr.dispatcher.tasks.built _ hx
  | worker w =>
      obtain ⟨st, hx⟩ := WorkerPc.mem_tasks_of_subject h
      exact (hr.worker w).tasks.built _ hx
  | caller e => cases h

/-- A pool that only runs its own tasks announces every change. -/
theorem not_unannounced (hhome : ∀ t, prog.home t = true) (hr : Reachable s) :
    ¬Unannounced s a := by
  rintro ⟨-, o, x, -, -, hx, hx'⟩
  rw [(hr.built_of_subject hx).home, hhome] at hx'
  cases hx'

/-- While every task has a thread that it may be sent to, no constraint is relaxed. -/
theorem Awake.not_strands (h : Awake s) (ht : Transit s) : ¬Strands s a := by
  rintro ⟨-, hrel, hw, -⟩
  have hcur := h.resolve_left hw
  have hlist := ht.dispatcher
  generalize dispatcher s = p at hrel hcur hlist
  unfold DispatcherPc.relaxes at hrel
  split at hrel
  case h_1 x _ _ =>
    have hx := hlist x List.mem_cons_self
    cases hl : x.preferredThread with
    | none => simp [hl] at hrel
    | some l =>
        rw [Specs.eligible_of_some hl] at hx
        simp [hl] at hrel
        simp [hrel] at hx
  case h_2 x _ _ =>
    obtain ⟨-, hnone, read, hc, hb⟩ := hcur.seen
    have hx := hlist x List.mem_cons_self
    rw [Specs.eligible_of_none hnone, hc, List.append_nil] at hx
    exact hx hb
  case h_3 => cases hrel

/-- The dispatcher of a pool with threads never sleeps on dispatchable work, if
all tasks were created by its own `MVSync`, none is cancelled, every preferred
label names a thread and no `not_on` list excludes all threads. -/
theorem dispatcher_awake (hc : 0 < cfg.threadCount) (hhome : ∀ t, prog.home t = true)
    (hp : prog.Placeable cfg)
    (h : System.ReachVia (fun _ a _ => cancels a = false ∧ labelled a = true) (poolInit cfg prog) s)
    {tasks : List Task} (hd : dispatcher s = .wait tasks)
    (hq : s.mem.queueSignal.ready = false) (ho : ∀ i, ¬Owes s i) :
    s.mem.channel = [] ∧ ∀ x ∈ tasks, ¬(s.mem.canExecute x = true ∧
      (s.mem.isPanicked x = true ∨
        ∃ w, cfg.targetThread s.mem.freeWorkers x = some w ∧ 0 < s.mem.freeWorkers w)) := by
  have hc' : cfg.threadCount ≠ 0 := fun he => absurd hc (by simp [he])
  have hinv : Transit s ∧ Awake s := by
    refine h.invariant (I := fun s => Transit s ∧ Awake s) ⟨.init, ?_⟩ ?_
    · exact .inr ⟨fun _ => rfl, nofun, trivial⟩
    · intro s s' a hv hi hs hok
      have hr : Reachable s := hv.reach
      exact ⟨hi.1.step hc' hp hr hok.2 hs, hi.2.step hc' hr hok.1 (not_unannounced hhome hr)
        (hi.2.not_strands hi.1) hs⟩
  have hcur : Current cfg s.mem (dispatcher s) := by
    refine hinv.2.resolve_left ?_
    rintro (hw | ⟨i, hi⟩)
    · simp [hq] at hw
    · exact ho i hi
  rw [hd] at hcur
  refine ⟨hcur.channel rfl, fun x hx => ?_⟩
  rintro ⟨hex, hpan⟩
  obtain ⟨hno, hfree⟩ := hcur.stuck x hx hex
  rcases hpan with hpan | ⟨w, hw, hpos⟩
  · simp [hno] at hpan
  · rw [hfree w (Specs.targetThread_best hw).1] at hpos
    exact absurd hpos (by decide)

/-- After a schedule of the dispatcher and one caller, only they may owe a wake-up. -/
theorem not_owes_after (as : List (pool cfg prog).Action)
    (hall : as.all (fun a => a.tid = .dispatcher ∨ a.tid = .caller 0) = true)
    (hd : (dispatcher ((poolInit cfg prog).after as)).owes = false)
    (he : (caller ((poolInit cfg prog).after as) 0).owes = false) (i : Tid) :
    ¬Owes ((poolInit cfg prog).after as) i := by
  have hpc : i ≠ .dispatcher → i ≠ .caller 0 →
      ((poolInit cfg prog).after as).pc i = (poolInit cfg prog).pc i := by
    intro hi hi'
    refine System.State.after_pc_of_ne as fun a ha => ?_
    rcases of_decide_eq_true (List.all_eq_true.mp hall a ha) with h | h
    · exact h ▸ hi.symm
    · exact h ▸ hi'.symm
  cases i with
  | dispatcher => simp [Owes, hd]
  | worker w =>
      have hw : worker ((poolInit cfg prog).after as) w = .top [] := hpc (by simp) (by simp)
      simp [Owes, hw, WorkerPc.owes]
  | caller e =>
      by_cases he' : e = 0
      · simp [Owes, he', he]
      · have hc : caller ((poolInit cfg prog).after as) e = .idle :=
          hpc (by simp) (by simpa using he')
        simp [Owes, hc, CallerPc.owes]

end Pool

set_option maxRecDepth 2000

/-- The schedule in which the chain of two functions is submitted, and the
dispatcher goes to sleep on the second one before the worker begins. -/
def asleepSchedule : List (pool Specs.one successorChain).Action :=
  submits 0 [0, 1] ++ List.replicate 60 dispatch

def asleep : (pool Specs.one successorChain).State := (poolInit _ _).after asleepSchedule

theorem successorChain_placeable : successorChain.Placeable Specs.one where
  preferred _ _ h := by cases h
  notOn _ := List.cons_ne_nil 0 []

theorem asleep_reachable :
    System.ReachVia (fun _ a _ => cancels a = false ∧ labelled a = true) (poolInit _ _) asleep := by
  have hall : asleepSchedule.all (fun a => !cancels a && labelled a) = true := by decide
  refine .after _ (fun a ha _ _ => ?_) .init
  simpa using List.all_eq_true.mp hall a ha

theorem asleep_not_owes (i : Tid) : ¬Owes asleep i :=
  not_owes_after asleepSchedule (by decide) (by decide) (by decide) i

/-- The dispatcher sleeps on the continuation, whose predecessor is pending. -/
theorem Pool.dispatcher_awake_asleep :
    asleep.mem.channel = [] ∧ ∀ x ∈ [successorChain.task 1], ¬(asleep.mem.canExecute x = true ∧
      (asleep.mem.isPanicked x = true ∨
        ∃ w, Specs.one.targetThread asleep.mem.freeWorkers x = some w ∧
          0 < asleep.mem.freeWorkers w)) :=
  dispatcher_awake (by decide) (fun _ => rfl) successorChain_placeable asleep_reachable
    (by decide) (by decide) asleep_not_owes

end MVSync
