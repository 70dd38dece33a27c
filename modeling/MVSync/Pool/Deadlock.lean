import Mathlib.Logic.Relation
import MVSync.Pool.Traced
import MVSync.Pool.Dataflow
import MVSync.Pool.Latch
import MVSync.Pool.Rank

/-!
# The pool does not deadlock

When the dispatcher and the workers are all blocked, a task that was submitted and is not
settled waits, directly or through the tasks that it depends on, for user code: for a
future that its worker keeps and that nobody wakes, or for a slot of workers that are full
of such futures (`Pool.deadlock_free`).  This takes a pool that has a slot left on every
thread, tasks that depend on submitted tasks only and not on each other in a circle, and
runs in which nobody cancels and no observer takes the wake-up of a continuation
(`Pool.Orderly`).
-/

namespace MVSync

open Concurrency Pool

variable {V P : Type} {cfg : Specs} {prog : Program V P} {m : Shared V P} {op : Op V P}
  {x : Task} {t u : TaskId} {w : WorkerId}

/-! ## Blocked threads -/

/-- Where the dispatcher is blocked. -/
theorem dispatcherNext_none {p : DispatcherPc P} (h : dispatcherNext cfg p m = none) :
    (p = .top [] ∧ m.channel = [] ∧ m.queueAlive = true) ∨
      (∃ xs, p = .wait xs ∧ m.queueSignal.ready = false) ∨ p.over = true := by
  cases p with
  | top xs =>
      cases xs with
      | nil =>
          simp only [dispatcherNext] at h
          split at h
          case h_1 => cases h
          case h_2 hc =>
            split at h
            case isTrue hq => exact .inl ⟨rfl, hc, hq⟩
            case isFalse => cases h
      | cons x xs =>
          simp only [dispatcherNext] at h
          split at h <;> cases h
  | wait xs =>
      have hw := Option.map_eq_none_iff.mp h
      refine .inr (.inl ⟨xs, rfl, ?_⟩)
      simpa [Signal.wait?] using hw
  | exited | panicked => exact .inr (.inr rfl)
  | scan todo remaining =>
      cases todo with
      | nil => cases remaining <;> cases h
      | cons => cases h
  | canExecute x ss todo remaining =>
      cases ss with
      | nil =>
          simp only [dispatcherNext] at h
          split at h <;> cases h
      | cons =>
          simp only [dispatcherNext] at h
          split at h <;> cases h
  | isPanicked | isCancelled | freeWorkers | getPanic | settle =>
      simp only [dispatcherNext] at h
      split at h <;> cases h
  | isCancelledSelf =>
      simp only [dispatcherNext] at h
      repeat' split at h
      all_goals cases h
  | select x best left =>
      cases left with
      | nil => cases best <;> cases h
      | cons => cases h
  | replace | send | fetchSub | wakeWorker => cases h

theorem DispatcherPc.owes_of_over {p : DispatcherPc P} (h : p.over = true) : p.owes = false := by
  cases p with
  | exited | panicked => rfl
  | _ => cases h

theorem DispatcherPc.tasks_of_over {p : DispatcherPc P} (h : p.over = true) :
    (p.tasks : List (Task × Stage V P)) = [] := by
  cases p with
  | exited | panicked => rfl
  | _ => cases h

theorem DispatcherPc.not_sendsTo_of_over {p : DispatcherPc P} (h : p.over = true) :
    ¬p.sendsTo w := by
  cases p with
  | exited | panicked => exact id
  | _ => cases h

/-- A poll is blocked in `predecessor.wait()` only. -/
theorem pollNext_none {p : PollPc V P} (h : pollNext prog x false p m = none) :
    ∃ q, p = .waitSignal q ∧ (m.cell q).signal.ready = false := by
  cases p with
  | waitSignal q =>
      have hw := Option.map_eq_none_iff.mp h
      exact ⟨q, rfl, by simpa [Signal.wait?] using hw⟩
  | start | takeBuffer =>
      simp only [pollNext] at h
      split at h <;> cases h
  | takeState =>
      simp only [pollNext] at h
      split at h <;> cases h
  | body =>
      simp only [pollNext, Bool.false_eq_true, if_false] at h
      split at h <;> cases h
  | readState =>
      simp only [pollNext] at h
      repeat' split at h
      all_goals cases h
  | writeBuffer | writeReady | replace => cases h

/-- Where a worker is blocked. -/
theorem workerNext_none {p : WorkerPc V P} (h : workerNext prog w false p m = none) :
    (p = .top [] ∧ m.workerChannel w = [] ∧ m.dispatcherAlive = true) ∨
      (∃ fs, p = .wait fs ∧ (m.workerSignal w).ready = false) ∨ p = .exited ∨
        ∃ x q kept todo, p = .poll x (.waitSignal q) kept todo ∧
          (m.cell q).signal.ready = false := by
  cases p with
  | top fs =>
      cases fs with
      | nil =>
          simp only [workerNext] at h
          split at h
          case h_1 => cases h
          case h_2 hc =>
            split at h
            case isTrue hd => exact .inl ⟨rfl, hc, hd⟩
            case isFalse => cases h
      | cons f fs =>
          simp only [workerNext] at h
          split at h <;> cases h
  | wait fs =>
      have hw := Option.map_eq_none_iff.mp h
      refine .inr (.inl ⟨fs, rfl, ?_⟩)
      simpa [Signal.wait?] using hw
  | exited => exact .inr (.inr (.inl rfl))
  | poll x p kept todo =>
      simp only [workerNext] at h
      split at h
      case h_1 hp =>
        obtain ⟨q, rfl, hq⟩ := pollNext_none hp
        exact .inr (.inr (.inr ⟨x, q, kept, todo, rfl, hq⟩))
      all_goals cases h
  | retain kept todo => cases todo <;> cases h
  | check fs =>
      cases fs with
      | nil => cases h
      | cons =>
          simp only [workerNext] at h
          split at h <;> cases h
  | pendingArm | settle =>
      simp only [workerNext] at h
      split at h <;> cases h
  | errArm | readyArm => cases h

/-! ## Kept futures -/

/-- The future was polled and awaits something. -/
structure Fut.Suspended (f : Fut V) : Prop where
  polled : f.suspended ≠ none
  awaits : f.task.inner.awaits = true

/-- The futures that a worker keeps were polled in this turn. -/
def WorkerPc.Parks : WorkerPc V P → Prop
  | .check fs | .wait fs => ∀ f ∈ fs, f.Suspended
  | .retain kept _ | .poll _ _ kept _ | .errArm _ _ kept _ | .readyArm _ kept _
  | .settle _ _ _ kept _ => ∀ f ∈ kept, f.Suspended
  | .pendingArm x _ kept _ => x.inner.awaits = true ∧ ∀ f ∈ kept, f.Suspended
  | .top _ | .exited => True

/-- A poll is pending in user code that awaits something. -/
theorem pollNext_pending {pends : Bool} {p : PollPc V P} {v : Option V}
    (h : pollNext prog x pends p m = some (.pending v, op)) : x.inner.awaits = true := by
  cases pollNext_step h with
  | pending _ ha => exact ha

theorem workerNext_parks {pends : Bool} {p p' : WorkerPc V P} (hp : p.Parks)
    (h : workerNext prog w pends p m = some (p', op)) : p'.Parks := by
  cases workerNext_step h with
  | recv | received => exact List.forall_mem_nil _
  | exit | tryRecv | emptied | again | wake => trivial
  | pending hq => exact ⟨pollNext_pending hq, hp⟩
  | pendingCancelled => exact hp.2
  | kept =>
      intro f hf
      rcases List.mem_append.mp hf with hf | hf
      · exact hp.2 f hf
      · rw [List.mem_singleton.mp hf]
        exact ⟨nofun, hp.1⟩
  | _ => exact hp

namespace Pool

variable {s s' : (pool cfg prog).State} {a : (pool cfg prog).Action}

theorem Reachable.parks (h : Reachable s) (w : WorkerId) : (Pool.worker s w).Parks :=
  h.pc_invariant (i := .worker w) (I := WorkerPc.Parks) trivial
    fun hn hi => workerNext_parks hi hn

/-! ## Orderly runs -/

/-- Nobody cancels, a label names a thread, and no observer takes the wake-up of a task
that has a continuation. -/
structure Orderly (s : (pool cfg prog).State) (a : (pool cfg prog).Action) : Prop where
  cancel : cancels a = false
  label : labelled a = true
  flag : ∀ p, prog.succ p ≠ none → ¬TakesFlag s a p .observer

/-- What an orderly run keeps. -/
structure Steady (s : (pool cfg prog).State) : Prop where
  transit : Transit s
  awake : Awake s
  attends : ∀ i, Attends s i
  flags : ∀ p, prog.succ p ≠ none → Taker.observer ∉ (s.mem.cell p).takes
  cancel : ¬SomeCancel s.mem

theorem Steady.init : Steady (poolInit cfg prog) where
  transit := .init
  awake := .inr (.of_top fun _ => rfl)
  attends := .init
  flags _ _ := List.not_mem_nil
  cancel := noCancel_init

/-- Without `cancel` there is nothing to be heard of. -/
theorem Steady.heard (h : Steady s) (hr : Reachable s) (ha : cancels a = false) : Heard s a where
  cancel e t := by
    rintro rfl
    cases ha
  refused x _ _ hx := absurd (hr.inv.life.cancelled x.id hx) h.cancel

theorem Steady.step (h : Steady s) (hc : cfg.threadCount ≠ 0) (hhome : ∀ t, prog.home t = true)
    (hp : prog.Placeable cfg) (hr : Reachable s) (ha : Orderly s a) (hs : s.step a = some s') :
    Steady s' where
  transit := h.transit.step hc hp hr ha.label hs
  awake := h.awake.step hc hr ha.cancel (not_unannounced hhome hr)
    (h.awake.not_strands h.transit) hs
  attends i := (h.attends i).step hr (h.heard hr ha.cancel) hs
  flags p hsucc := by
    obtain ⟨q, o, hn, rfl⟩ := System.State.step_cases hs
    rcases (Op.cellStep o s.mem p).takes with ht | ⟨k, rfl, ht⟩
    · exact ht ▸ h.flags p hsucc
    · have hk : k ≠ .observer := by
        rintro rfl
        exact ha.flag p hsucc ⟨q, hn⟩
      exact ht.symm ▸ by simpa [hk.symm] using h.flags p hsucc
  cancel := noCancel_step h.cancel ha.cancel hs

/-- The runs in which everybody behaves. -/
abbrev OrderlyRun (s : (pool cfg prog).State) : Prop :=
  System.ReachVia (fun s a _ => Orderly s a) (poolInit cfg prog) s

theorem OrderlyRun.steady (h : OrderlyRun s) (hc : cfg.threadCount ≠ 0)
    (hhome : ∀ t, prog.home t = true) (hp : prog.Placeable cfg) : Steady s :=
  h.invariant .init fun _ hv hi hs hok => hi.step hc hhome hp hv.reach hok hs

theorem OrderlyRun.traced (h : OrderlyRun s) (hc : cfg.threadCount ≠ 0) (t : TaskId) :
    Traced s t :=
  Pool.traced hc (h.mono fun _ _ _ ha => ha.cancel) t

/-! ## States in which the pool is blocked -/

/-- The future of `u` is kept by a worker that sleeps, in user code. -/
structure Parked (s : (pool cfg prog).State) (u : TaskId) : Prop where
  kept : ∃ w ∈ cfg.threads, ∃ fs, worker s w = .wait fs ∧ ∃ f ∈ fs, f.task.id = u
  running : ∃ v, (s.mem.cell u).stage = .running v
  awaits : (prog.inner u).awaits = true

/-- The worker sleeps, and the futures that it keeps take all the slots that it has not
leaked. -/
def Full (s : (pool cfg prog).State) (w : WorkerId) : Prop :=
  ∃ fs, worker s w = .wait fs ∧ fs.length + s.mem.leaked w = cfg.workersPerThread.toNat

/-- The task waits for a slot, and the workers that it may be sent to are full. -/
def Crowded (s : (pool cfg prog).State) (u : TaskId) : Prop :=
  ∃ xs x, dispatcher s = .wait xs ∧ x ∈ xs ∧ x.id = u ∧ cfg.eligible x ≠ [] ∧
    ∀ w ∈ cfg.eligible x, Full s w

/-- An action of the dispatcher or of a worker, in which no user code is pending. -/
def Prompt (a : (pool cfg prog).Action) : Prop :=
  Serves a ∧ ∀ w, a ≠ work w true

/-- The dispatcher and the workers are blocked, and no task is being submitted. -/
structure AtRest (s : (pool cfg prog).State) : Prop where
  halted : s.Halted Prompt
  caller : ∀ e sent xs, caller s e ≠ .sending sent xs

section

variable (hc : cfg.threadCount ≠ 0) (hr : Reachable s) (hst : Steady s) (h : AtRest s)

include h

theorem AtRest.dispatcher : dispatcherNext cfg (Pool.dispatcher s) s.mem = none :=
  h.halted dispatch ⟨trivial, nofun⟩

theorem AtRest.worker (hw : w ∈ cfg.threads) :
    workerNext prog w false (Pool.worker s w) s.mem = none :=
  h.halted (work w false) ⟨hw, nofun⟩

include hc hr

/-- A task whose outcome is written was woken. -/
theorem AtRest.wakes_of_decided (hd : (s.mem.cell t).stage.decided = true) :
    (s.mem.cell t).wakes ≠ [] := by
  intro hw
  have hcell := hr.inv.life.cell t
  have hfin : (s.mem.cell t).stage = .finished := by
    rw [CellOk] at hcell
    cases hs : (s.mem.cell t).stage <;> simp [hs, Stage.decided, hw] at hd hcell ⊢
  obtain ⟨-, i, ho, hn, -⟩ := hr.finishing hfin
  cases i with
  | dispatcher => exact hn () h.dispatcher
  | worker w => exact hn false (h.worker (hr.mem_threads t w (.inr ho)))
  | caller e =>
      obtain ⟨sent, xs, hp⟩ := hr.sending_of_owner hc ho
      exact h.caller e sent xs hp

include hst

/-- No worker is blocked in `predecessor.wait()`. -/
theorem AtRest.worker_cases (hw : w ∈ cfg.threads) :
    (Pool.worker s w = .top [] ∧ s.mem.workerChannel w = []) ∨
      (∃ fs, Pool.worker s w = .wait fs ∧ s.mem.workerChannel w = []) ∨
        Pool.worker s w = .exited := by
  rcases workerNext_none (h.worker hw) with ⟨hp, hch, -⟩ | ⟨fs, hp, hflag⟩ | hp |
    ⟨x, q, kept, todo, hp, hflag⟩
  · exact .inl ⟨hp, hch⟩
  · have hch : s.mem.workerChannel w = [] := by
      refine (hst.attends (.worker w)).inbox.resolve_right ?_
      rintro ((hup | hsend) | hdrain)
      · simp [hflag] at hup
      · rcases dispatcherNext_none h.dispatcher with ⟨hd, -⟩ | ⟨xs, hd, -⟩ | hd
        · simp [hd, DispatcherPc.sendsTo] at hsend
        · simp [hd, DispatcherPc.sendsTo] at hsend
        · exact DispatcherPc.not_sendsTo_of_over hd hsend
      · simp [Draining, hp, WorkerPc.drains] at hdrain
    exact .inr (.inl ⟨fs, hp, hch⟩)
  · exact .inr (.inr hp)
  · have hloc := hr.worker w
    rw [hp] at hloc
    have hstage : (s.mem.cell x.id).stage = .passed := hloc.tasks.head_stage
    have hpred : prog.pred x.id = some q := hloc.knows
    have hdec := (hr.inv.places.handed x.id w (.inr hloc.tasks.head_owner) q hpred).1
    have hready := (hr.ready_iff (h.wakes_of_decided hc hr hdec)).not.mp (by simp [hflag])
    -- only an observer takes the flag before the continuation
    obtain ⟨k, hk⟩ := List.exists_mem_of_ne_nil _ hready
    have hlink := hr.inv.linked x.id q hpred
    rw [hstage] at hlink
    obtain rfl := hlink.2 k hk
    exact absurd hk (hst.flags q (by simp [Program.pred_succ.mp hpred]))

/-- What the dispatcher has read is true. -/
theorem AtRest.current : Current cfg s.mem (Pool.dispatcher s) := by
  have howes : ∀ i, ¬Owes s i := by
    rintro (_ | w | e) ho
    · rcases dispatcherNext_none h.dispatcher with ⟨hd, -⟩ | ⟨xs, hd, -⟩ | hd
      · simp [Owes, hd, DispatcherPc.owes] at ho
      · simp [Owes, hd, DispatcherPc.owes] at ho
      · simp [Owes, DispatcherPc.owes_of_over hd] at ho
    · obtain ⟨x, hx⟩ := WorkerPc.exists_task_of_owes ho
      have hw := hr.mem_threads x.1.id w (.inr ((hr.worker w).tasks.owner_of_mem hx))
      rcases h.worker_cases hc hr hst hw with ⟨hp, -⟩ | ⟨fs, hp, -⟩ | hp <;>
        simp [Owes, hp, WorkerPc.owes] at ho
    · simp only [Owes] at ho
      cases hp : Pool.caller s e with
      | sending sent xs => exact h.caller e sent xs hp
      | _ => rw [hp] at ho; cases ho
  rcases dispatcherNext_none h.dispatcher with ⟨hd, hch, -⟩ | ⟨xs, hd, hflag⟩ | hd
  · exact hd ▸ .of_top fun _ => hch
  · refine hst.awake.resolve_left ?_
    rintro (hup | ⟨i, hi⟩)
    · simp [hflag] at hup
    · exact howes i hi
  · exact .of_over hd

/-- A worker without a free slot is full: its channel is empty, and nothing is being sent
to it. -/
theorem AtRest.full (hw : w ∈ cfg.threads) (hfree : s.mem.freeWorkers w = 0)
    (hleak : s.mem.leaked w < cfg.workersPerThread.toNat) {xs : List Task}
    (hd : Pool.dispatcher s = .wait xs) : Full s w := by
  obtain ⟨free, hf, hbal, -⟩ := hr.slots w
  have hsent : (Pool.dispatcher s).sent w = 0 := by simp [hd, DispatcherPc.sent]
  have hlt := cfg.workersPerThread.toNat_lt
  obtain rfl : free = 0 := by
    have hz : (UInt32.ofNat free).toNat = 0 := by rw [← hf, hfree]; rfl
    rwa [UInt32.toNat_ofNat_of_lt' (by rw [UInt32.size]; omega)] at hz
  rcases h.worker_cases hc hr hst hw with ⟨hp, hch⟩ | ⟨fs, hp, hch⟩ | hp
  · simp only [hp, hch, hsent, WorkerPc.load, List.length_nil] at hbal
    omega
  · refine ⟨fs, hp, ?_⟩
    simp only [hp, hch, hsent, WorkerPc.load, List.length_nil] at hbal
    omega
  · -- an exited worker has seen the dispatcher gone
    have hover := hr.alive.resolve_left (by simp [(hr.over.worker w hp).1])
    simp [hd, DispatcherPc.over] at hover

/-- A task in the list of the dispatcher waits for a dependency that is not settled, or for
a slot. -/
theorem AtRest.listed (hleak : ∀ w ∈ cfg.threads, s.mem.leaked w < cfg.workersPerThread.toNat)
    {xs : List Task} (hd : Pool.dispatcher s = .wait xs) (hx : x ∈ xs) :
    (∃ g ∈ prog.wait x.id, s.mem.sem g = false) ∨
      (∃ p, prog.pred x.id = some p ∧ (s.mem.cell p).state = .pending) ∨ Crowded s x.id := by
  have hcur := h.current hc hr hst
  have hloc := hr.dispatcher
  rw [hd] at hcur hloc
  have hb : prog.Built x := hloc.tasks.built (x, .fresh) (List.mem_map.mpr ⟨x, hx, rfl⟩)
  cases hcan : s.mem.canExecute x with
  | true =>
      have hbusy := (hcur.stuck x hx hcan).2
      have helig := hst.transit.dispatcher x (by rw [hd]; exact hx)
      refine .inr (.inr ⟨xs, x, hd, hx, rfl, helig, fun w hw => ?_⟩)
      have hthread := Specs.mem_threads_of_eligible hw
      exact h.full hc hr hst hthread (hbusy w hw) (hleak w hthread) hd
  | false =>
      rw [Shared.canExecute, Bool.and_eq_false_iff, hb.wait] at hcan
      rcases hcan with hw | hp
      · obtain ⟨g, hg, hs⟩ := List.all_eq_false.mp hw
        exact .inl ⟨g, hg, by simpa using hs⟩
      · have hpend : s.mem.predState x = .pending := by
          by_contra hne
          simp [TaskState.bne_pending.mpr hne] at hp
        rw [Shared.predState, hb.pred] at hpend
        split at hpend
        case h_1 => cases hpend
        case h_2 p hpx => exact .inr (.inl ⟨p, hpx, hpend⟩)

/-- Where a task is that was submitted and not woken. -/
theorem AtRest.cases (ha : Traced s t) (ho : (s.mem.cell t).owner ≠ .user)
    (hw : (s.mem.cell t).wakes = []) :
    (∃ xs x, Pool.dispatcher s = .wait xs ∧ x ∈ xs ∧ x.id = t) ∨ Parked s t := by
  cases hown : (s.mem.cell t).owner with
  | user => exact absurd hown ho
  | gone =>
      rcases ha with hu | ⟨e, he⟩ | hsent
      · exact absurd hu ho
      · rw [hown] at he
        cases he
      · obtain ⟨site, hs⟩ := hsent.settled hown
        have hcell := hr.inv.life.cell t
        rw [CellOk, hs] at hcell
        rw [hcell.2.1] at hw
        cases hw
  | channel =>
      obtain ⟨x, -, hx⟩ := hr.inv.places.channel.exists_mem hown
      have hnil : s.mem.channel = [] := by
        rcases dispatcherNext_none h.dispatcher with ⟨-, hch, -⟩ | ⟨xs, hd, -⟩ | hd
        · exact hch
        · exact (h.current hc hr hst).channel (by rw [hd]; rfl)
        · exact (hr.over.dispatcher hd).2
      simp [hnil] at hx
  | workerChannel w =>
      obtain ⟨x, -, hx⟩ := (hr.inv.places.workerChannel w).exists_mem hown
      have hnil : s.mem.workerChannel w = [] := by
        rcases h.worker_cases hc hr hst (hr.mem_threads t w (.inl hown)) with
          ⟨-, hch⟩ | ⟨-, -, hch⟩ | hp
        · exact hch
        · exact hch
        · exact (hr.over.worker w hp).2
      simp [hnil] at hx
  | thread i =>
      cases i with
      | dispatcher =>
          obtain ⟨x, rfl, hx⟩ := hr.dispatcher.tasks.exists_mem hown
          rcases dispatcherNext_none h.dispatcher with ⟨hd, -⟩ | ⟨xs, hd, -⟩ | hd
          · simp [hd, DispatcherPc.tasks] at hx
          · rw [hd] at hx
            obtain ⟨y, hy, he⟩ := List.mem_map.mp hx
            obtain ⟨rfl, -⟩ := Prod.mk.inj he
            exact .inl ⟨xs, y, hd, hy, rfl⟩
          · rw [DispatcherPc.tasks_of_over hd] at hx
            cases hx
      | worker w =>
          have hmem := hr.mem_threads t w (.inr hown)
          obtain ⟨x, rfl, hx⟩ := (hr.worker w).tasks.exists_mem hown
          rcases h.worker_cases hc hr hst hmem with ⟨hp, -⟩ | ⟨fs, hp, -⟩ | hp
          · simp [hp, WorkerPc.tasks] at hx
          · have hparks := hr.parks w
            have hb : prog.Built x := (hr.worker w).tasks.built _ hx
            rw [hp] at hx hparks
            obtain ⟨f, hf, he⟩ := List.mem_map.mp hx
            obtain ⟨rfl, hstage⟩ := Prod.mk.inj he
            obtain ⟨hpolled, hawaits⟩ := hparks f hf
            refine .inr ⟨⟨w, hmem, fs, hp, f, hf, rfl⟩, ?_, hb.inner ▸ hawaits⟩
            obtain ⟨v, hv⟩ := Option.ne_none_iff_exists'.mp hpolled
            exact ⟨v, by rw [← hstage, Fut.entry, hv]; rfl⟩
          · simp [hp, WorkerPc.tasks] at hx
      | caller e =>
          obtain ⟨sent, xs, hp⟩ := hr.sending_of_owner hc hown
          exact absurd hp (h.caller e sent xs)

end

end Pool

/-! ## Freedom from deadlock -/

/-- `t` waits for `u`: its predecessor, or a task that signals a semaphore of its. -/
def Program.WaitsFor (prog : Program V P) (t u : TaskId) : Prop :=
  prog.pred t = some u ∨ ∃ g ∈ prog.wait t, g ∈ prog.semaphores u

namespace Pool

variable {s s' : (pool cfg prog).State}

/-- What `t` depends on was submitted, all the way down: its predecessor, and for each
semaphore that it waits on a task that signals it. -/
abbrev Grounded (s : (pool cfg prog).State) (t : TaskId) : Prop :=
  prog.graph.Supplied (submissions s) t

/-- `t` waits, directly or not, for a future in user code or for a full worker. -/
def Held (s : (pool cfg prog).State) (t : TaskId) : Prop :=
  ∃ u, Relation.ReflTransGen prog.WaitsFor t u ∧ (Parked s u ∨ Crowded s u)

theorem Held.head (ht : prog.WaitsFor t u) (h : Held s u) : Held s t :=
  h.imp fun _ hv => ⟨.head ht hv.1, hv.2⟩

/-- A submitted task is settled or held, since what it depends on is. -/
theorem AtRest.settled_or_held (hrest : AtRest s) (hc : cfg.threadCount ≠ 0)
    (hhome : ∀ t, prog.home t = true) (hp : prog.Placeable cfg) (h : OrderlyRun s)
    (hleak : ∀ w ∈ cfg.threads, s.mem.leaked w < cfg.workersPerThread.toNat)
    (hg : Grounded s t) : Settled s t ∨ Held s t := by
  have hst := h.steady hc hhome hp
  induction hg with
  | @intro t signaller ho _ hsig _ ihpred ihwait =>
    by_cases hw : (s.mem.cell t).wakes = []
    case neg => exact .inl (Reachable.settled h.reach hw)
    refine .inr ?_
    rcases hrest.cases hc h.reach hst (h.traced hc t) ho hw with ⟨xs, x, hd, hx, rfl⟩ | hpark
    · rcases hrest.listed hc h.reach hst hleak hd hx with ⟨g, hg, hno⟩ | ⟨p, hpx, hpend⟩ | hcrowd
      · have hwaits : prog.WaitsFor x.id (signaller g) := .inr ⟨g, hg, hsig g hg⟩
        refine ((ihwait g hg).resolve_left fun hs => ?_).head hwaits
        simp [hs.semaphores g (hsig g hg)] at hno
      · have hwaits : prog.WaitsFor x.id p := .inl hpx
        exact ((ihpred p hpx).resolve_left fun hs => hs.state hpend).head hwaits
      · exact ⟨x.id, .refl, .inr hcrowd⟩
    · exact ⟨t, .refl, .inl hpark⟩

/-- When the threads of the pool are blocked, a submitted task is settled or waits for
user code: for a future that nobody wakes, or for a slot of workers that are full of such
futures. -/
theorem deadlock_free (hc : 0 < cfg.threadCount) (hhome : ∀ t, prog.home t = true)
    (hp : prog.Placeable cfg) (h : OrderlyRun s)
    (hleak : ∀ w ∈ cfg.threads, s.mem.leaked w < cfg.workersPerThread.toNat) (hrest : AtRest s) :
    ∀ t, Grounded s t → Settled s t ∨ Held s t := by
  have hc' : cfg.threadCount ≠ 0 := fun he => absurd hc (by simp [he])
  exact fun t hg => hrest.settled_or_held hc' hhome hp h hleak hg

/-- No `cancel`, a label that names a thread, and no wait of an observer. -/
def behaves (s : (pool cfg prog).State) (a : (pool cfg prog).Action) : Bool :=
  !cancels a && labelled a &&
    match s.next a with
    | some (_, .waitSignal _ .observer) => false
    | _ => true

theorem orderly_of_behaves {a : (pool cfg prog).Action} (h : behaves s a = true) : Orderly s a := by
  simp only [behaves, Bool.and_eq_true, Bool.not_eq_true'] at h
  refine ⟨h.1.1, h.1.2, ?_⟩
  rintro p - ⟨q, hn⟩
  simp [hn] at h

/-- A schedule of one caller leaves the other callers where they are. -/
theorem caller_after {as : List (pool cfg prog).Action}
    (hall : as.all (fun a => a.tid = .dispatcher ∨ a.tid = .worker 0 ∨ a.tid = .caller 0) = true)
    (he : caller ((poolInit cfg prog).after as) 0 = .idle) (e : CallerId) :
    caller ((poolInit cfg prog).after as) e = .idle := by
  by_cases h₀ : e = 0
  · rwa [h₀]
  refine System.State.after_pc_of_ne (i := .caller e) as fun a ha => ?_
  rcases of_decide_eq_true (List.all_eq_true.mp hall a ha) with h | h | h <;> rw [h]
  · exact nofun
  · exact nofun
  · simpa using Ne.symm h₀

end Pool

/-! ## A chain that is held up -/

set_option maxRecDepth 2000

/-- A chain of two functions of which the first awaits something. -/
def heldChain : Program Nat Nat := .chain true 1 fun _ v => .ok (v.elim 5 (· + 1))

/-- The schedule in which the chain is submitted, the dispatcher goes to sleep on the
second function, and the worker on the first. -/
def heldSchedule : List (pool Specs.one heldChain).Action :=
  submits 0 [0, 1] ++ List.replicate 40 dispatch ++ List.replicate 20 (work 0 true)

def heldRun : (pool Specs.one heldChain).State := (poolInit _ _).after heldSchedule

theorem heldRun_orderly : OrderlyRun heldRun :=
  .along .init (fun _ _ _ _ => orderly_of_behaves) heldSchedule (by decide)

theorem heldRun_atRest : AtRest heldRun where
  halted := by
    rintro ⟨i, c⟩ ⟨hi, -⟩
    cases i with
    | dispatcher =>
        have hd : dispatcher heldRun = .wait [heldChain.task 1] := by decide
        have hq : heldRun.mem.queueSignal.ready = false := by decide
        show dispatcherNext Specs.one (dispatcher heldRun) heldRun.mem = none
        simp [hd, dispatcherNext, Signal.wait?, hq]
    | worker w =>
        obtain rfl : w = 0 := by simpa [Serves, Tid.Serves, Specs.threads, Specs.one] using hi
        have hw : worker heldRun 0 = .wait [⟨heldChain.task 0, some none⟩] := by decide
        have hq : (heldRun.mem.workerSignal 0).ready = false := by decide
        show workerNext heldChain 0 c (worker heldRun 0) heldRun.mem = none
        simp [hw, workerNext, Signal.wait?, hq]
    | caller e => exact hi.elim
  caller e sent xs hp := by
    have he : caller heldRun e = .idle := caller_after (by decide) (by decide) e
    rw [he] at hp
    cases hp

theorem heldChain_placeable : heldChain.Placeable Specs.one where
  preferred _ _ h := by cases h
  notOn _ := List.cons_ne_nil 0 []

/-- A task of a chain is grounded in the tasks before it. -/
theorem Pool.grounded_chain {async : Bool} {n : Nat}
    {body : TaskId → Option V → Except (Payload P) V}
    {s : (pool cfg (Program.chain async n body)).State}
    (hs : ∀ p < n, (s.mem.cell p).owner ≠ .user) (ht : (s.mem.cell t).owner ≠ .user) :
    Grounded s t := by
  induction t using Nat.strong_induction_on with
  | _ t ih =>
    refine .intro id ht (fun p hp => ?_) nofun nofun
    have hsucc := Program.pred_succ.mp hp
    simp only [Program.chain] at hsucc
    split at hsucc
    case isTrue hlt => exact ih p (Program.pred_lt hp) (hs p hlt)
    case isFalse => cases hsucc

/-- The second function waits for user code. -/
theorem Pool.deadlock_free_heldRun : Settled heldRun 1 ∨ Held heldRun 1 :=
  deadlock_free (by decide) (fun _ => rfl) heldChain_placeable heldRun_orderly (by decide)
    heldRun_atRest 1 (grounded_chain (by decide) (by decide))

end MVSync
