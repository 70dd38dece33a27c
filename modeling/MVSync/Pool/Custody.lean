import MVSync.Pool.Cancel
import MVSync.Pool.GetPanic
import MVSync.Pool.Placement
import MVSync.Pool.WakeUps

/-!
# Every task that was sent is somewhere

A task that a submit call has put into the submission channel goes through the list
of the dispatcher and the channel of a worker to the futures of the worker, until it
is settled.  It is always in one of these places, and there once: the loops end only
with nothing left, and without a `cancel` the dispatcher does not panic.
-/

namespace MVSync

open Concurrency Pool

variable {V P : Type} {cfg : Specs} {prog : Program V P} {m : Shared V P} {i : Tid} {t : TaskId}
  {op : Op V P}

/-! ## The places -/

/-- The places of a task that was sent. -/
inductive Place where
  | channel
  /-- The list of the dispatcher, with the task at hand. -/
  | dispatcher
  | workerChannel (w : WorkerId)
  /-- The futures of a worker, with the one at hand. -/
  | futures (w : WorkerId)
  | settled
deriving DecidableEq, Repr

/-- Who has the tasks of a place. -/
def Place.owner : Place → Owner
  | .channel => .channel
  | .dispatcher => .thread .dispatcher
  | .workerChannel w => .workerChannel w
  | .futures w => .thread (.worker w)
  | .settled => .gone

theorem Place.owner_injective : Function.Injective Place.owner := by
  intro p q h
  cases p <;> cases q <;> simp_all [Place.owner]

/-- The numbers of some tasks. -/
def ids (l : List (Task × Stage V P)) : List TaskId := l.map fun x => x.1.id

theorem ids_map (st : Stage V P) (xs : List Task) :
    ids (xs.map fun x => (x, st)) = xs.map Task.id := by
  simp [ids, Function.comp_def]

namespace Pool

variable {s s' : (pool cfg prog).State} {a : (pool cfg prog).Action}

/-- How often a task is in a place.  It is settled when both of its signals were
woken. -/
def count (s : (pool cfg prog).State) (t : TaskId) : Place → Nat
  | .channel => (s.mem.channel.map Task.id).count t
  | .dispatcher => (ids ((dispatcher s).tasks : List (Task × Stage V P))).count t
  | .workerChannel w => ((s.mem.workerChannel w).map Task.id).count t
  | .futures w => (ids (worker s w).tasks).count t
  | .settled => if (s.mem.cell t).queueWakes = [] then 0 else 1

/-- The task is in one place, and there once.  If it is settled, it is so for good. -/
structure Kept (s : (pool cfg prog).State) (t : TaskId) : Prop where
  place : ∃ p, count s t p = 1 ∧ ∀ q, q ≠ p → count s t q = 0
  settled : count s t .settled = 1 → Settled s t

end Pool

/-- An owner has a task once, or not at all. -/
theorem Shared.Has.count {o : Owner} {l : List (Task × Stage V P)} (h : m.Has prog o l)
    (t : TaskId) : (ids l).count t = if (m.cell t).owner = o then 1 else 0 := by
  have hc := h.holds.count t
  rwa [List.map_map] at hc

/-- The second signal is woken when the task is settled. -/
theorem CellOk.queueWakes_ne_nil {c : Cell V P} (h : CellOk prog t c) :
    c.queueWakes ≠ [] ↔ ∃ site, c.stage = .settled site := by
  constructor
  · intro hq
    rcases h.phase with hu | ⟨-, site, hs, -⟩
    · exact absurd hu.queueWakes hq
    · rcases hs with hs | hs
      · rw [CellOk, hs] at h
        exact absurd h.2.2 hq
      · exact ⟨site, hs⟩
  · rintro ⟨site, hs⟩
    rw [CellOk, hs] at h
    simp [h.2.2]

/-! ## The ends of the loops -/

/-- `Queue::run` returns when the submission channel is disconnected and empty, and
its own list is empty. -/
theorem dispatcherNext_exited {p : DispatcherPc P}
    (h : dispatcherNext cfg p m = some (.exited, op)) :
    p = .top [] ∧ m.channel = [] ∧ m.queueAlive = false := by
  cases dispatcherNext_step h with
  | exit hc hq => exact ⟨rfl, hc, hq⟩

/-- What a dispatcher that has left its loop leaves behind. -/
theorem dispatcherNext_leaves {p p' : DispatcherPc P} (hp : p'.over = true)
    (h : dispatcherNext cfg p m = some (p', op)) :
    (op.exec m).dispatcherAlive = false ∧ (op.exec m).channel = [] := by
  cases dispatcherNext_step h with
  | exit hc _ => exact ⟨rfl, hc⟩
  | panic => exact ⟨rfl, rfl⟩
  | _ => cases hp

/-- A task is sent while the dispatcher has the receiver. -/
theorem callerNext_send {e : CallerId} {c : CallerInput} {p p' : CallerPc V P} {x : Task}
    (h : callerNext cfg prog e c p m = some (p', .send x)) : m.dispatcherAlive = true := by
  cases callerNext_step h with
  | send hd => exact hd
  | more hp | pending hp | err hp | ready hp => cases pollNext_ofFuture hp
  | settle hs | settled hs => cases settleNext_ofFuture hs

theorem dispatcherNext_dropDispatcher {p p' : DispatcherPc P}
    (h : dispatcherNext cfg p m = some (p', .dropDispatcher)) : p' = .panicked := by
  cases dispatcherNext_step h with
  | panic => rfl
  | settle hs | settled hs => cases settleNext_ofFuture hs

/-- `WorkerThread::run` of a pool worker returns when its channel is disconnected and
empty, and it has no futures. -/
theorem workerNext_exited {w : WorkerId} {pends : Bool} {p : WorkerPc V P}
    (h : workerNext prog w pends p m = some (.exited, op)) :
    p = .top [] ∧ m.workerChannel w = [] ∧ m.dispatcherAlive = false ∧ op = .tau := by
  cases workerNext_step h with
  | exit hc hd => exact ⟨rfl, hc, hd, rfl⟩

/-! ## The steps of a task -/

/-- Only the second signal settles a task. -/
theorem Op.moveTo_ne_settled {site : Site} : op.moveTo ≠ some (t, .settled site) := by
  cases op with
  | waitSignal u k => cases k <;> simp [moveTo]
  | takeResult u k r => cases k <;> simp [moveTo]
  | takeBuffer u k v => cases k <;> simp [moveTo]
  | _ => simp [moveTo]

/-- A settled task is gone. -/
theorem Op.owner_of_settled (hp : op.Pre prog i m) (hpl : Places prog m) {site : Site}
    (hi : ∀ site, (m.cell t).stage = .settled site → (m.cell t).owner = .gone)
    (hs : ((op.exec m).cell t).stage = .settled site) : ((op.exec m).cell t).owner = .gone := by
  rcases (Op.cellStep op m t).stage with he | he | ⟨w, x, rfl, hx⟩ | ⟨home, site, rfl⟩
  · have ho := hi site (he ▸ hs)
    rcases Op.owner_cases hp hpl t with hsame | hc
    · exact hsame.trans ho
    · rw [ho] at hc
      cases hc
  · exact absurd (hs ▸ he) Op.moveTo_ne_settled
  · subst hx
    simp [Op.exec] at hs
  · simp [Op.exec]

namespace Pool

variable {s s' : (pool cfg prog).State} {a : (pool cfg prog).Action}

theorem Reachable.owner_of_settled (h : Reachable s) {site : Site}
    (hs : (s.mem.cell t).stage = .settled site) : (s.mem.cell t).owner = .gone := by
  refine h.invariant (I := fun s => ∀ site, (s.mem.cell t).stage = .settled site →
    (s.mem.cell t).owner = .gone) (fun _ hs => by cases hs) ?_ site hs
  intro s s' a hr hi hs _ site hst
  have hr : Reachable s := hr
  obtain ⟨o, ho, hm⟩ := mem_of_step hs
  rw [hm] at hst ⊢
  exact Op.owner_of_settled (hr.performs ho) hr.inv.places hi hst

/-- In a reachable state a place has the tasks of its owner. -/
theorem Reachable.count_place (h : Reachable s) {p : Place} (hp : p ≠ .settled) :
    count s t p = if (s.mem.cell t).owner = p.owner then 1 else 0 := by
  cases p with
  | channel =>
      rw [count, ← ids_map (Stage.fresh : Stage V P)]
      exact h.inv.places.channel.count t
  | dispatcher => exact h.dispatcher.tasks.count t
  | workerChannel w =>
      rw [count, ← ids_map (Stage.passed : Stage V P)]
      exact (h.inv.places.workerChannel w).count t
  | futures w => exact (h.worker w).tasks.count t
  | settled => exact absurd rfl hp

/-- A task that was sent: it has an owner of a place, and it is gone only when it is
settled. -/
structure Sent (s : (pool cfg prog).State) (t : TaskId) : Prop where
  place : ∃ p : Place, (s.mem.cell t).owner = p.owner
  settled : (s.mem.cell t).owner = .gone → ∃ site, (s.mem.cell t).stage = .settled site

theorem Sent.kept (ht : Sent s t) (h : Reachable s) : Kept s t := by
  have hsettled : count s t .settled = if (s.mem.cell t).owner = .gone then 1 else 0 := by
    have hq := (h.inv.life.cell t).queueWakes_ne_nil
    rw [count]
    by_cases ho : (s.mem.cell t).owner = .gone
    · rw [if_pos ho, if_neg (hq.mpr (ht.settled ho))]
    · rw [if_neg ho, if_pos]
      by_contra hne
      obtain ⟨site, hs⟩ := hq.mp hne
      exact ho (h.owner_of_settled hs)
  have hcount : ∀ p : Place, count s t p = if (s.mem.cell t).owner = p.owner then 1 else 0 := by
    intro p
    by_cases hp : p = .settled
    · exact hp ▸ hsettled
    · exact h.count_place hp
  obtain ⟨p, hp⟩ := ht.place
  refine ⟨⟨p, by rw [hcount, if_pos hp], fun q hq => ?_⟩, fun hs => h.settled fun hw => ?_⟩
  · rw [hcount, if_neg]
    intro ho
    exact hq (Place.owner_injective (ho.symm.trans hp))
  · -- the second signal is woken after the first
    rw [count, if_pos (h.queueWakes_eq_nil hw)] at hs
    cases hs

/-! ## Runs without `cancel` -/

/-- A task is sent by a submit call. -/
theorem Sent.of_send {x : Task} (ho : Performs s a (.send x))
    (hs : s.step a = some s') : Sent s' x.id := by
  obtain ⟨o, ho', hm⟩ := mem_of_step hs
  obtain rfl := ho.unique ho'
  have howner : (s'.mem.cell x.id).owner = .channel := by simp [hm, Op.exec]
  exact ⟨⟨.channel, howner⟩, fun hg => by simp [howner] at hg⟩

/-- The dispatcher drops its tasks when it panics. -/
theorem Reachable.dispatcher_of_dropDispatcher (h : Reachable s) (ho : Performs s a .dropDispatcher)
    (hs : s.step a = some s') : Pool.dispatcher s' = .panicked := by
  have hi : a.tid = .dispatcher := (h.performs ho).1
  obtain ⟨q, hn⟩ := ho
  obtain ⟨i, c⟩ := a
  subst hi
  obtain ⟨q', o, hn', rfl⟩ := System.State.step_cases hs
  obtain ⟨rfl, rfl⟩ := Prod.mk.inj (Option.some.inj (hn.symm.trans hn'))
  exact (dispatcher_move s _ q).trans (dispatcherNext_dropDispatcher hn)

/-- A task that was sent goes from place to place, unless the dispatcher panics. -/
theorem Sent.step (ht : Sent s t) (h : Reachable s) (hs : s.step a = some s')
    (hd : Pool.dispatcher s' ≠ .panicked) : Sent s' t := by
  obtain ⟨o, ho, hm⟩ := mem_of_step hs
  have hp := h.performs ho
  obtain ⟨⟨p, hown⟩, hset⟩ := ht
  have hgone : o ≠ .dropDispatcher := by
    rintro rfl
    exact hd (h.dispatcher_of_dropDispatcher ho hs)
  rcases Op.owner_cases hp h.inv.places t with hsame | hc
  · rw [← hm] at hsame
    refine ⟨⟨p, hsame.trans hown⟩, fun hg => ?_⟩
    have hg' := hsame.symm.trans hg
    rw [hm, Op.stage_eq hp (by simp [hg'])]
    exact hset hg'
  · rw [← hm] at hc
    generalize ho₁ : (s.mem.cell t).owner = o₁ at hc
    generalize ho₂ : (s'.mem.cell t).owner = o₂ at hc
    cases hc with
    | recv => exact ⟨⟨.dispatcher, ho₂⟩, fun hg => by simp [ho₂] at hg⟩
    | sendWorker w => exact ⟨⟨.workerChannel w, ho₂⟩, fun hg => by simp [ho₂] at hg⟩
    | recvWorker w => exact ⟨⟨.futures w, ho₂⟩, fun hg => by simp [ho₂] at hg⟩
    | wakeQueue i home site =>
        refine ⟨⟨.settled, ho₂⟩, fun _ => ⟨site, ?_⟩⟩
        simp [hm, Op.exec]
    | dropTask i =>
        -- only a caller drops a task that was not run
        obtain ⟨⟨e, hi⟩, hat, -⟩ := hp
        rw [hat, hi] at hown
        cases p <;> cases hown
    | dropDispatcher => exact absurd rfl hgone
    | dropChannel => exact absurd rfl hgone
    | _ =>
        -- the task was with the user
        rw [ho₁] at hown
        cases p <;> cases hown

theorem not_overtakes_of_cancels (ha : cancels a = false) : ¬Overtakes s a := by
  rintro ⟨x, todo, remaining, p, -, -, q, hn⟩
  obtain ⟨i, c⟩ := a
  cases i with
  | dispatcher => cases dispatcherNext_ofCaller hn
  | worker w => cases workerNext_ofCaller hn
  | caller e =>
      obtain rfl : c = CallerInput.cancel p := callerNext_cancel hn
      cases ha

/-- The dispatcher does not panic without `cancel`. -/
theorem dispatcher_ne_panicked
    (h : System.ReachVia (fun _ a _ => cancels a = false) (poolInit cfg prog) s) :
    dispatcher s ≠ .panicked := by
  have hguard : PanicGuarded s := by
    refine h.invariant (I := PanicGuarded) ⟨by simp [dispatcher, poolInit], fun _ _ _ hd => ?_⟩ ?_
    · cases hd
    · exact fun a hr hi hs ha => hi.step hr.reach (not_overtakes_of_cancels ha) hs
  exact hguard.1

/-! ## When the loops end -/

/-- Nothing is in a channel whose receiver is gone. -/
structure Over (s : (pool cfg prog).State) : Prop where
  dispatcher : (dispatcher s).over = true → s.mem.dispatcherAlive = false ∧ s.mem.channel = []
  worker : ∀ w, worker s w = .exited → s.mem.dispatcherAlive = false ∧ s.mem.workerChannel w = []

theorem dispatcherAlive_of_step (hs : s.step a = some s') (hd : s.mem.dispatcherAlive = false) :
    s'.mem.dispatcherAlive = false := by
  obtain ⟨o, -, hm⟩ := mem_of_step hs
  rw [hm]
  by_cases ho : o = .exitDispatcher ∨ o = .dropDispatcher
  · rcases ho with rfl | rfl <;> rfl
  · rw [not_or] at ho
    exact (Op.dispatcherAlive_eq ho.1 ho.2).trans hd

/-- Nothing gets into a channel after its receiver is gone. -/
theorem Reachable.channel_of_step (h : Reachable s) (hs : s.step a = some s')
    (hd : s.mem.dispatcherAlive = false) (hc : s.mem.channel = []) : s'.mem.channel = [] := by
  obtain ⟨o, ho, hm⟩ := mem_of_step hs
  rw [hm, List.eq_nil_iff_forall_not_mem]
  intro y hy
  rcases Op.mem_channel hy with hy | rfl
  · simp [hc] at hy
  · obtain ⟨⟨e, hi⟩, -⟩ := h.performs ho
    obtain ⟨q, hn⟩ := ho
    obtain ⟨i, c⟩ := a
    obtain rfl : i = .caller e := hi
    have halive : s.mem.dispatcherAlive = true := callerNext_send hn
    simp [hd] at halive

theorem Reachable.workerChannel_of_step (h : Reachable s) (hs : s.step a = some s')
    (hd : s.mem.dispatcherAlive = false) {w : WorkerId} (hc : s.mem.workerChannel w = []) :
    s'.mem.workerChannel w = [] := by
  obtain ⟨o, ho, hm⟩ := mem_of_step hs
  rw [hm, List.eq_nil_iff_forall_not_mem]
  intro y hy
  rcases Op.mem_workerChannel hy with hy | rfl
  · simp [hc] at hy
  · have hi : a.tid = .dispatcher := (h.performs ho).1
    obtain ⟨q, hn⟩ := ho
    obtain ⟨i, c⟩ := a
    subst hi
    obtain ⟨todo, remaining, hp, -⟩ := dispatcherNext_sendWorker (p := Pool.dispatcher s) hn
    have hover := h.alive.resolve_left (by simp [hd])
    rw [hp] at hover
    cases hover

theorem Over.step (ho : Over s) (h : Reachable s) (hs : s.step a = some s') : Over s' := by
  have old : (Pool.dispatcher s').over = (Pool.dispatcher s).over →
      (Pool.dispatcher s').over = true → s'.mem.dispatcherAlive = false ∧ s'.mem.channel = [] := by
    intro he hov
    obtain ⟨hd, hc⟩ := ho.dispatcher (he ▸ hov)
    exact ⟨dispatcherAlive_of_step hs hd, h.channel_of_step hs hd hc⟩
  have oldWorker : ∀ w, Pool.worker s' w = Pool.worker s w → Pool.worker s' w = .exited →
      s'.mem.dispatcherAlive = false ∧ s'.mem.workerChannel w = [] := by
    intro w he hw
    obtain ⟨hd, hc⟩ := ho.worker w (he ▸ hw)
    exact ⟨dispatcherAlive_of_step hs hd, h.workerChannel_of_step hs hd hc⟩
  rcases step_cases hs with ⟨q, o, rfl, hn, rfl⟩ | ⟨v, pends, q, o, rfl, hn, rfl⟩ |
    ⟨e, c, q, o, rfl, -, rfl⟩
  · refine ⟨fun hov => ?_, fun w => oldWorker w (worker_move_dispatcher s o w q)⟩
    rw [dispatcher_move] at hov
    exact dispatcherNext_leaves hov hn
  · refine ⟨old (by rw [dispatcher_move_worker]), fun w hw => ?_⟩
    by_cases hv : w = v
    · subst hv
      rw [worker_move] at hw
      subst hw
      obtain ⟨-, hc, hd, rfl⟩ := workerNext_exited hn
      exact ⟨hd, hc⟩
    · exact oldWorker w (worker_move_of_ne s o hv q) hw
  · refine ⟨old (by rw [dispatcher_move_caller]), fun w => ?_⟩
    exact oldWorker w (worker_move_caller s o w e q)

theorem Reachable.over (h : Reachable s) : Over s := by
  have hinit : Over (poolInit cfg prog) := ⟨(by cases ·), fun _ => (by cases ·)⟩
  refine h.invariant (I := Over) hinit ?_
  exact fun a hr ho hs _ => ho.step hr hs

theorem exited_of_step (hs : s.step a = some s')
    (hd : Pool.dispatcher s ≠ .exited) (hd' : Pool.dispatcher s' = .exited) :
    s.mem.channel = [] ∧ s.mem.queueAlive = false ∧ Pool.dispatcher s = .top [] := by
  rcases step_cases hs with ⟨q, o, rfl, hn, rfl⟩ | ⟨w, pends, q, o, rfl, -, rfl⟩ |
    ⟨e, c, q, o, rfl, -, rfl⟩
  · rw [dispatcher_move] at hd'
    subst hd'
    obtain ⟨hp, hc, hq⟩ := dispatcherNext_exited hn
    exact ⟨hc, hq, hp⟩
  · exact absurd ((dispatcher_move_worker s o w q).symm.trans hd') hd
  · exact absurd ((dispatcher_move_caller s o e q).symm.trans hd') hd

theorem worker_exited_of_step {w : WorkerId} (hs : s.step a = some s')
    (hw : Pool.worker s w ≠ .exited) (hw' : Pool.worker s' w = .exited) :
    s.mem.workerChannel w = [] ∧ s.mem.dispatcherAlive = false ∧ Pool.worker s w = .top [] := by
  rcases step_cases hs with ⟨q, o, rfl, -, rfl⟩ | ⟨v, pends, q, o, rfl, hn, rfl⟩ |
    ⟨e, c, q, o, rfl, -, rfl⟩
  · exact absurd ((worker_move_dispatcher s o w q).symm.trans hw') hw
  · by_cases hv : w = v
    · subst hv
      rw [worker_move] at hw'
      subst hw'
      obtain ⟨hp, hc, hd, -⟩ := workerNext_exited hn
      exact ⟨hc, hd, hp⟩
    · exact absurd ((worker_move_of_ne s o hv q).symm.trans hw') hw
  · exact absurd ((worker_move_caller s o w e q).symm.trans hw') hw

/-- Without `cancel` every task that a submit call has sent is in one place, and
there once, in every later state.  The loops end with a disconnected and empty
channel and an empty list, and nothing gets into the channel of a loop that has
ended. -/
theorem sent_kept :
    (∀ (s s₁ s' : (pool cfg prog).State) (a : (pool cfg prog).Action) (x : Task),
      System.ReachVia (fun _ a _ => cancels a = false) (poolInit cfg prog) s →
        Performs s a (.send x) → cancels a = false → s.step a = some s₁ →
          System.ReachVia (fun _ a _ => cancels a = false) s₁ s' → Kept s' x.id) ∧
      (∀ (s s' : (pool cfg prog).State) (a : (pool cfg prog).Action), Reachable s →
        s.step a = some s' →
          (dispatcher s ≠ .exited → dispatcher s' = .exited →
            s.mem.channel = [] ∧ s.mem.queueAlive = false ∧ dispatcher s = .top []) ∧
          ∀ w, worker s w ≠ .exited → worker s' w = .exited →
            s.mem.workerChannel w = [] ∧ s.mem.dispatcherAlive = false ∧ worker s w = .top []) ∧
      ∀ s : (pool cfg prog).State, Reachable s → Over s := by
  refine ⟨fun s s₁ s' a x h ho ha hs hr => ?_, fun s s' a _ hs => ⟨?_, fun w => ?_⟩,
    fun s h => h.over⟩
  · have h₁ : System.ReachVia (fun _ a _ => cancels a = false) (poolInit cfg prog) s₁ :=
      .step a h hs ha
    have hsent : Sent s' x.id := by
      refine hr.invariant (I := fun s => Sent s x.id) (.of_send ho hs) ?_
      intro s₂ s₃ b hr₂ ht hb hok
      have h₂ := h₁.trans hr₂
      exact ht.step h₂.reach hb (dispatcher_ne_panicked (.step b h₂ hb hok))
    exact hsent.kept (h₁.trans hr).reach
  · exact exited_of_step hs
  · exact worker_exited_of_step hs

end Pool

/-! ## A run to the end -/

set_option maxRecDepth 2000

/-- The chain of two functions is about to be sent. -/
def sendingRun : (pool Specs.one successorChain).State :=
  (poolInit _ _).after [call 0 (.submitAll [0, 1])]

/-- The rest of the submission, and the drop of the queue. -/
def dropSchedule : List (pool Specs.one successorChain).Action :=
  [call 0 .proceed, call 0 .proceed, call 0 .dropQueue] ++ turns 26

/-- Both functions were run, and the dispatcher is about to return. -/
def droppedQueueRun : (pool Specs.one successorChain).State :=
  (sendingRun.after [call 0 .proceed]).after dropSchedule

theorem sendingRun_reachable :
    System.ReachVia (fun _ a _ => cancels a = false) (poolInit _ _) sendingRun :=
  .after _ (fun a ha _ _ => by simpa using List.mem_singleton.mp ha ▸ rfl) .init

theorem droppedQueueRun_reachable :
    System.ReachVia (fun _ a _ => cancels a = false) (sendingRun.after [call 0 .proceed])
      droppedQueueRun := by
  have hall : dropSchedule.all (!cancels ·) = true := by decide
  refine .after _ (fun a ha _ _ => ?_) .init
  simpa using List.all_eq_true.mp hall a ha

/-- The first function is kept until the end, and then nothing is left. -/
theorem Pool.sent_kept_droppedQueueRun :
    Kept droppedQueueRun 0 ∧
      (droppedQueueRun.mem.channel = [] ∧ droppedQueueRun.mem.queueAlive = false ∧
        dispatcher droppedQueueRun = .top []) ∧
      Over (droppedQueueRun.after (turns 20)) := by
  have hsend : Reachable (sendingRun.after [call 0 .proceed]) :=
    .after _ sendingRun_reachable.reach
  have hdrop : Reachable droppedQueueRun := hsend.trans droppedQueueRun_reachable.reach
  refine ⟨sent_kept.1 sendingRun _ _ (call 0 .proceed) (successorChain.task 0) sendingRun_reachable
    ⟨_, rfl⟩ rfl rfl droppedQueueRun_reachable, ?_, sent_kept.2.2 _ (.after _ hdrop)⟩
  exact (sent_kept.2.1 droppedQueueRun _ dispatch hdrop rfl).1 (by decide) (by decide)

end MVSync
