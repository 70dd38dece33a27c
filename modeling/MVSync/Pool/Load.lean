import MVSync.Pool.Finality
import MVSync.Pool.Slots

/-!
# The load of a worker

The dispatcher puts a task into the channel of a worker before it lowers
`free_workers`, so in between the worker can finish the task and raise the
counter first.  The balance of the slots (`SlotsOk`) has a term for that task.
It bounds the tasks that are with a worker, keeps the counter from wrapping
around, and makes the counter safe to read for the dispatcher, which is never at
its `fetch_sub` when it reads one.
-/

namespace MVSync

open Concurrency Pool

variable {V P : Type} {cfg : Specs} {prog : Program V P} {w : WorkerId} {t : TaskId}

/-- The tasks that were sent to worker `w` and have not finished: no outcome of
them is written. -/
def Pool.unfinished (s : (pool cfg prog).State) (w : WorkerId) : List Task :=
  s.mem.workerChannel w ++
    ((worker s w).tasks.map Prod.fst).filter fun x => !(s.mem.cell x.id).stage.decided

/-- The dispatcher is about to read the counter of `w`. -/
def DispatcherPc.reads (w : WorkerId) : DispatcherPc P → Prop
  | .select _ _ (v :: _) _ _ | .freeWorkers _ v _ _ => v = w
  | _ => False

/-- A slot is claimed until the task is counted that was sent for it. -/
theorem DispatcherPc.sent_le_claims (d : DispatcherPc P) (w : WorkerId) :
    d.sent w ≤ d.claims w ∧ d.claims w ≤ 1 := by
  cases d with
  | send x v | fetchSub v =>
      by_cases hv : v = w <;> simp [sent, claims, hv]
  | _ => exact ⟨Nat.le_refl 0, Nat.zero_le 1⟩

/-- A task holds a slot of its worker until its outcome is written. -/
theorem WorkerPc.length_unfinished {m : Shared V P} {q : WorkerPc V P}
    (h : m.Has prog (.thread (.worker w)) q.tasks) :
    ((q.tasks.map Prod.fst).filter fun x => !(m.cell x.id).stage.decided).length ≤ q.load := by
  have hle : ∀ l : List (Task × Stage V P),
      ((l.map Prod.fst).filter fun x => !(m.cell x.id).stage.decided).length ≤ l.length :=
    fun l => Nat.le_trans (List.length_filter_le _ _) (by simp)
  cases q with
  | settle x site sp kept todo =>
      -- the outcome of the task at hand is written
      have hd : (m.cell x.id).stage.decided = true := by
        rw [h.head_stage]
        cases sp <;> rfl
      refine Nat.le_trans (Nat.le_of_eq ?_) (Nat.le_trans (hle (futs (kept ++ todo))) ?_)
      · simp [tasks, hd]
      · simp [futs, load]
  | _ => exact Nat.le_trans (hle _) (by simp [tasks, futs, load])

namespace Pool

variable {s s' : (pool cfg prog).State} {a : (pool cfg prog).Action}

/-- The unfinished tasks of a worker are those that were sent to it and are not
decided. -/
theorem Reachable.mem_unfinished (h : Reachable s) :
    t ∈ (unfinished s w).map Task.id ↔
      ((s.mem.cell t).owner = .workerChannel w ∨ (s.mem.cell t).owner = .thread (.worker w)) ∧
        (s.mem.cell t).stage.decided = false := by
  have hc := h.inv.places.workerChannel w
  have hw := (h.worker w).tasks
  simp only [unfinished, List.map_append, List.mem_append, List.mem_map, List.mem_filter]
  constructor
  · rintro (⟨x, hx, rfl⟩ | ⟨x, ⟨⟨⟨y, st⟩, hy, rfl⟩, hd⟩, rfl⟩)
    · have hx := List.mem_map_of_mem (f := fun x => (x, (Stage.passed : Stage V P))) hx
      refine ⟨.inl (hc.owner_of_mem hx), ?_⟩
      rw [hc.stage_of_mem hx]
      rfl
    · exact ⟨.inr (hw.owner_of_mem hy), by simpa using hd⟩
  · rintro ⟨ho | ho, hd⟩
    · obtain ⟨x, rfl, hx⟩ := hc.exists_mem ho
      obtain ⟨y, hy, he⟩ := List.mem_map.mp hx
      obtain ⟨rfl, -⟩ := Prod.mk.inj he
      exact .inl ⟨y, hy, rfl⟩
    · obtain ⟨x, rfl, hx⟩ := hw.exists_mem ho
      exact .inr ⟨x, ⟨⟨_, hx, rfl⟩, by simpa using hd⟩, rfl⟩

/-- What the balance of worker `w` says of its counter and its tasks. -/
theorem Reachable.load_le (h : Reachable s) (hW : cfg.workersPerThread.toNat < UInt32.size - 1)
    (w : WorkerId) :
    (s.mem.freeWorkers w).toNat + (s.mem.workerChannel w).length + (Pool.worker s w).load ≤
        cfg.workersPerThread.toNat + (Pool.dispatcher s).sent w ∧
      (Pool.dispatcher s).claims w ≤ (s.mem.freeWorkers w).toNat := by
  obtain ⟨free, hf, hb, hc⟩ := h.slots w
  obtain ⟨hsent, hone⟩ := (Pool.dispatcher s).sent_le_claims w
  have hfree : (s.mem.freeWorkers w).toNat = free := by
    rw [hf]
    exact UInt32.toNat_ofNat_of_lt' (show free < UInt32.size by omega)
  rw [hfree]
  exact ⟨by omega, hc⟩

theorem Reachable.length_unfinished (h : Reachable s) (w : WorkerId) :
    (unfinished s w).length ≤ (s.mem.workerChannel w).length + (Pool.worker s w).load := by
  rw [unfinished, List.length_append]
  exact Nat.add_le_add_left (WorkerPc.length_unfinished (h.worker w).tasks) _

/-- A worker raises its counter for a task that holds a slot. -/
theorem Reachable.load_of_fetchAdd (h : Reachable s) (ho : Performs s a (.fetchAdd w)) :
    0 < (Pool.worker s w).load := by
  have hi : a.tid = .worker w := h.performs ho
  obtain ⟨q, hn⟩ := ho
  obtain ⟨i, pends⟩ := a
  subst hi
  rcases workerNext_slots (q := Pool.worker s w) hn with ⟨hk, -⟩ | ⟨he, -⟩ | ⟨-, hl⟩ |
    ⟨⟨t, ⟨r, he⟩ | he⟩, -⟩
  · cases hk
  · cases he
  · exact Nat.lt_of_lt_of_eq (Nat.succ_pos _) hl.symm
  · cases he
  · cases he

/-- The dispatcher lowers the counter for a slot that it has seen free. -/
theorem Reachable.claims_of_fetchSub (h : Reachable s) (ho : Performs s a (.fetchSub w)) :
    (Pool.dispatcher s).claims w = 1 := by
  have hi : a.tid = .dispatcher := h.performs ho
  obtain ⟨q, hn⟩ := ho
  obtain ⟨i, c⟩ := a
  subst hi
  rcases dispatcherNext_slots (p := Pool.dispatcher s) hn with ⟨hk, -⟩ |
    ⟨x, v, todo, remaining, -, -, -, he⟩ | ⟨x, v, todo, remaining, -, -, he⟩ |
    ⟨v, todo, remaining, hd, -, he⟩
  · cases hk
  · cases he
  · cases he
  · cases he
    simp [hd, DispatcherPc.claims]

/-- For every number of slots below `UInt32.size - 1`, a worker never has more
unfinished tasks than slots, its counter does not wrap around, and the
dispatcher never reads more free slots than there are. -/
theorem never_overcommitted (hW : cfg.workersPerThread.toNat < UInt32.size - 1)
    (s : (pool cfg prog).State) (h : Reachable s) (w : WorkerId) :
    (unfinished s w).length ≤ cfg.workersPerThread.toNat ∧
      (∀ a s', s.step a = some s' → Performs s a (.fetchAdd w) →
        (s'.mem.freeWorkers w).toNat = (s.mem.freeWorkers w).toNat + 1) ∧
      (∀ a s', s.step a = some s' → Performs s a (.fetchSub w) →
        (s'.mem.freeWorkers w).toNat + 1 = (s.mem.freeWorkers w).toNat) ∧
      ((dispatcher s).reads w →
        (s.mem.freeWorkers w).toNat ≤
          cfg.workersPerThread.toNat - (unfinished s w).length) := by
  obtain ⟨hload, hclaims⟩ := h.load_le hW w
  have hlen := h.length_unfinished w
  obtain ⟨hsent, hone⟩ := (dispatcher s).sent_le_claims w
  refine ⟨by omega, fun a s' hs ho => ?_, fun a s' hs ho => ?_, fun hr => ?_⟩
  · obtain ⟨o, ho', hmem⟩ := mem_of_step hs
    obtain rfl := ho.unique ho'
    have hpos := h.load_of_fetchAdd ho
    simp only [hmem, Op.exec, Function.update_self, UInt32.toNat_add]
    have hlt : (s.mem.freeWorkers w).toNat + 1 < UInt32.size := by omega
    exact Nat.mod_eq_of_lt hlt
  · obtain ⟨o, ho', hmem⟩ := mem_of_step hs
    obtain rfl := ho.unique ho'
    have hone := h.claims_of_fetchSub ho
    have hle : (1 : UInt32) ≤ s.mem.freeWorkers w := UInt32.le_iff_toNat_le.mpr (by simp; omega)
    simp only [hmem, Op.exec, Function.update_self, UInt32.toNat_sub_of_le _ _ hle]
    simp
    omega
  · have hzero : (dispatcher s).sent w = 0 := by
      generalize dispatcher s = d at hr
      cases d <;> first | rfl | exact hr.elim
    omega

end Pool

set_option maxRecDepth 2000

/-- A pool with one worker that takes two tasks at a time. -/
def Specs.pair : Specs := ⟨1, 2, []⟩

/-- Two of three tasks were sent, and the worker has not received them.  The dispatcher is
about to read its counter for the third. -/
def loadedRun : (pool Specs.pair single).State :=
  (poolInit _ _).after (submits 0 [0, 1, 2] ++ List.replicate 32 dispatch)

/-- Both slots of the worker are in use, and the dispatcher will read that none is free. -/
theorem Pool.never_overcommitted_loadedRun :
    (unfinished loadedRun 0).length = 2 ∧
      (unfinished loadedRun 0).length ≤ Specs.pair.workersPerThread.toNat ∧
      (loadedRun.mem.freeWorkers 0).toNat ≤
        Specs.pair.workersPerThread.toNat - (unfinished loadedRun 0).length := by
  obtain ⟨hle, -, -, hread⟩ := never_overcommitted (by decide) loadedRun (.after _ .init) 0
  exact ⟨by decide, hle, hread (show (0 : WorkerId) = 0 from rfl)⟩

end MVSync
