import MVSync.CommandBuffer.Order
import MVSync.CommandBuffer.Progress
import MVSync.Pool.Chain
import MVSync.Pool.Completion

/-!
# A command buffer from the recording to the last handle

What is recorded, baked and submitted is run to its end.  When every chain of a recording
is completed before the next one is begun and the links are acyclic, what a baked task
depends on is in the buffer as well (`Placed.grounded`), so the pool completes it.  The last
handle of a chain then shows the composition of the bodies of the chain, and the fences are
open (`Pool.buffer_completes`).
-/

namespace MVSync

open Concurrency Pool

variable {V P : Type} {cfg : Specs} {prog : Program V P} {g : SemId} {r : Recorder}
  {baked : Baked} {first : SemId} {task : TaskId → TaskId} {sem : SemId → SemId}
  {fence : FenceId → FenceId} {k j : Nat} {x : Task} {t : TaskId}

/-! ## What a baked task depends on -/

theorem Inner.predecessor_rename (inner : Inner) :
    (inner.rename task).predecessor = inner.predecessor.map task := by
  cases inner <;> rfl

namespace Placed

/-- The predecessor of a baked task. -/
theorem pred_eq (h : Placed prog r first baked task sem fence) {c : TaskChain} (hl : c.Linear)
    (hc : r.raw.tasks[k]? = some c) {y : Task} (hy : c.tasks[j]? = some y) :
    prog.pred (task y.id) = (c.before j).map task := by
  have hin := h.within.inner _ (h.mem (taskAt_bind first hc hy))
  simp only [Task.bindAll] at hin
  rw [Program.pred, hin, Inner.predecessor_rename, hl j y hy]

/-- A semaphore that a baked task waits on is signalled by a task in front of it, in its
chain or by a link. -/
theorem signaller (h : Placed prog r first baked task sem fence)
    (hx : TaskAt (r.raw.wired first) k j x) (hg : g ∈ prog.wait (task x.id)) :
    ∃ e i y, TaskAt (r.raw.wired first) e i y ∧ g ∈ prog.semaphores (task y.id) ∧
      (e = k ∧ i < j ∨ (e, k) ∈ r.raw.chainLinks) := by
  obtain ⟨closed, current, hr⟩ := h.recorded
  rw [h.within.wait x (h.mem hx)] at hg
  obtain ⟨g', hg', rfl⟩ := List.mem_map.mp hg
  obtain ⟨w, hw, hwait, rfl⟩ := ((hr.waits h.inRange hx).2 g').mp hg'
  obtain ⟨e, i, c, hc, hi, hs, hbefore⟩ := hw.signals_of_waits hwait
  have hy := taskAt_bind first hc (List.getElem?_eq_getElem hi)
  refine ⟨e, i, _, hy, ?_, hbefore⟩
  rw [h.within.semaphores _ (h.mem hy)]
  exact List.mem_map_of_mem (((hr.signals h.inRange hy).2 _).mpr ⟨w, hw, hs, rfl⟩)

/-- When the links are acyclic, a baked task is grounded in the buffer. -/
theorem grounded {s : (pool cfg prog).State} (h : Placed prog r first baked task sem fence)
    (hlin : ∀ c ∈ r.raw.tasks, c.Linear)
    (hac : ∀ k, ¬Relation.TransGen (fun e s => (e, s) ∈ r.raw.chainLinks) k k)
    (hs : ∀ x ∈ baked.tasks, (s.mem.cell (task x.id)).owner ≠ .user) :
    ∀ x ∈ baked.tasks, Grounded s (task x.id) := by
  let bad : Nat → Nat → Prop := fun k j =>
    ∃ x, TaskAt (r.raw.wired first) k j x ∧ ¬Grounded s (task x.id)
  have hfin : {k | ∃ j, bad k j}.Finite := by
    refine (Set.finite_lt_nat (r.raw.wired first).length).subset ?_
    rintro k ⟨j, x, ⟨c, hc, -⟩, -⟩
    exact (List.getElem?_eq_some_iff.mp hc).1
  intro x hx
  by_contra hbad
  obtain ⟨k, j, hx⟩ := h.taskAt_of_mem hx
  -- the first bad task of a chain that no bad chain is linked to
  obtain ⟨k, hk, hfirst⟩ := exists_first hac hfin ⟨k, j, x, hx, hbad⟩
  classical
  obtain ⟨x, hx, hbad⟩ := Nat.find_spec hk
  have hbefore : ∀ i < Nat.find hk, ∀ y, TaskAt (r.raw.wired first) k i y →
      Grounded s (task y.id) := by
    intro i hi y hy
    by_contra hn
    exact Nat.find_min hk hi ⟨y, hy, hn⟩
  refine hbad (.of_exists (hs x (h.mem hx)) (fun p hp => ?_) fun g hg => ?_)
  · obtain ⟨c, y, hc, hy, rfl⟩ := taskAt_wired.mp hx
    have hpred := h.pred_eq (hlin c (List.mem_of_getElem? hc)) hc hy
    change prog.pred (task y.id) = some p at hp
    rw [hpred] at hp
    cases hj : Nat.find hk with
    | zero => simp [hj, TaskChain.before] at hp
    | succ i =>
        rw [hj] at hp hy
        have hlen : i < c.tasks.length := Nat.lt_of_succ_lt (List.getElem?_eq_some_iff.mp hy).1
        rw [TaskChain.before, List.getElem?_eq_getElem hlen] at hp
        obtain rfl := Option.some.inj hp
        have hy' := taskAt_bind first hc (List.getElem?_eq_getElem hlen)
        have hgr := hbefore i (by omega) _ hy'
        exact hgr
  · obtain ⟨e, i, y, hy, hsig, hle⟩ := h.signaller hx hg
    refine ⟨task y.id, hsig, ?_⟩
    rcases hle with ⟨rfl, hi⟩ | hl
    · exact hbefore i hi y hy
    · by_contra hn
      exact hfirst e ⟨i, y, hy, hn⟩ hl

/-- The chains of the buffer are chains of the program. -/
theorem isChain (h : Placed prog r first baked task sem fence) {c : TaskChain} (hl : c.Linear)
    (hc : r.raw.tasks[k]? = some c) {ts : List TaskId} (hids : c.ids = t :: ts) :
    prog.IsChain (task t) (ts.map task) := by
  have hget : ∀ (j : Nat) (u : TaskId), (t :: ts)[j]? = some u →
      prog.pred (task u) = (c.before j).map task := by
    intro j u hu
    rw [← hids, TaskChain.ids, List.getElem?_map] at hu
    obtain ⟨y, hy, rfl⟩ := Option.map_eq_some_iff.mp hu
    exact h.pred_eq hl hc hy
  refine ⟨hget 0 t rfl, ?_⟩
  rw [← List.map_cons, List.isChain_map, List.isChain_iff_getElem]
  intro j hj
  rw [hget (j + 1) _ (List.getElem?_eq_getElem hj), TaskChain.before, ← List.getElem?_map]
  change (c.ids[j]?).map task = _
  rw [hids, List.getElem?_eq_getElem (Nat.lt_of_succ_lt hj)]
  rfl

/-- A chain that is completed shows the composition of its bodies. -/
theorem shows {s : (pool cfg prog).State} (h : Placed prog r first baked task sem fence)
    {c : TaskChain} (hl : c.Linear) (hc : c ∈ r.raw.tasks) {ts : List TaskId}
    (hids : c.ids = t :: ts) (hdone : ∀ u ∈ c.ids, Completed s (task u)) :
    (s.mem.cell ((ts.map task).getLastD (task t))).Shows
      (prog.chainValue (task t) (ts.map task)) := by
  obtain ⟨k, hk⟩ := List.getElem?_of_mem hc
  have hlast : ts.getLastD t ∈ c.ids := hids ▸ List.getLastD_mem_cons
  obtain ⟨o, ho, hshows⟩ := (hdone _ hlast).outcome
  have hevals := (h.isChain hl hk hids).evals
  rw [List.getLastD_map] at hevals ⊢
  obtain rfl := ho.unique hevals
  exact hshows

theorem completed_ids {s : (pool cfg prog).State} (h : Placed prog r first baked task sem fence)
    (hdone : ∀ x ∈ baked.tasks, Completed s (task x.id)) {c : TaskChain} (hc : c ∈ r.raw.tasks)
    (ht : t ∈ c.ids) : Completed s (task t) := by
  obtain ⟨k, hk⟩ := List.getElem?_of_mem hc
  obtain ⟨x, hx, rfl⟩ := List.mem_map.mp ht
  obtain ⟨j, hj⟩ := List.getElem?_of_mem hx
  have hbound := hdone _ (h.mem (taskAt_bind first hk hj))
  exact hbound

theorem of_finish {home : Bool} {calls : List Call} (hrun : (Recorder.new home).run calls = some r)
    (hb : r.raw.finish first = .ok baked) (hin : baked.Within prog task sem fence) :
    Placed prog r first baked task sem fence := by
  obtain ⟨closed, current, hr⟩ := (Recorder.Recorded.new home).run hrun
  exact ⟨⟨closed, current, hr⟩, RawCommandBuffer.inRange_of_finish hb, (hr.baked hb).1, hin⟩

end Placed

/-- When no older chain is extended, every chain is linear. -/
theorem Recorder.linear {home : Bool} {calls : List Call}
    (hrun : (Recorder.new home).run calls = some r) (he : Intent.new.ExtendsAll calls) :
    ∀ c ∈ r.raw.tasks, c.Linear := by
  obtain ⟨closed, current, hp, hlin⟩ := (Linear.new home).run (Watched.new home) he hrun
  exact fun c hc => hlin.chains c (hp.tasks ▸ hc)

/-! ## From the recording to the last handle -/

/-- The buffer has run to its end: its tasks are completed, the last handle of every chain
shows the composition of the bodies of the chain, and every fence on a chain is open. -/
structure Pool.BufferDone (r : Recorder) (baked : Baked) (task : TaskId → TaskId)
    (fence : FenceId → FenceId) (s : (pool cfg prog).State) : Prop where
  tasks : ∀ x ∈ baked.tasks, Completed s (task x.id)
  chains : ∀ c ∈ r.raw.tasks, ∀ t ts, c.ids = t :: ts →
    (s.mem.cell ((ts.map task).getLastD (task t))).Shows (prog.chainValue (task t) (ts.map task))
  fences : ∀ k f c, (k, f) ∈ r.raw.fences → r.raw.tasks[k]? = some c → c.tasks ≠ [] →
    ∃ t, prog.fence (fence f) = some t ∧ Settled s t

/-- A command buffer whose chains are completed one after the other and whose links are
acyclic runs to its end once it is submitted, whichever thread moves next. -/
theorem Pool.buffer_completes (home : Bool) (calls : List Call)
    (hrun : (Recorder.new home).run calls = some r) (he : Intent.new.ExtendsAll calls)
    (hb : r.raw.finish first = .ok baked)
    (hac : ∀ k, ¬Relation.TransGen (fun e s => (e, s) ∈ r.raw.chainLinks) k k)
    (hin : baked.Within prog task sem fence) (hroom : Roomy cfg prog)
    {s₀ : (pool cfg prog).State} (h : PromptRun s₀)
    (hcall : ∀ e sent xs, caller s₀ e ≠ .sending sent xs)
    (hsub : ∀ x ∈ baked.tasks, (s₀.mem.cell (task x.id)).owner ≠ .user) :
    System.Inevitable Prompt (BufferDone r baked task fence) s₀ := by
  have hlin := Recorder.linear hrun he
  have hplaced : Placed prog r first baked task sem fence := .of_finish hrun hb hin
  obtain ⟨closed, current, hr⟩ := (Recorder.Recorded.new home).run hrun
  refine h.inevitable hcall fun s hi hh => ?_
  have hdone : ∀ x ∈ baked.tasks, Completed s (task x.id) :=
    fun x hx => hi.completed hroom hh (hplaced.grounded hlin hac hsub x hx)
  refine ⟨hdone, fun c hc t ts hids => ?_, fun k f c hf hc hne => ?_⟩
  · exact hplaced.shows (hlin c hc) hc hids fun u hu => hplaced.completed_ids hdone hc hu
  · have hx := List.getLast?_eq_getLast_of_ne_nil hne
    have hbound := (hr.baked hb).2 k f c _ hf hc hx
    rw [List.getLast?_eq_getElem?] at hx
    exact ⟨_, hin.fence f _ hbound, (hdone _ (hplaced.mem (taskAt_bind first hc hx))).settled⟩

/-! ## A buffer with a panic -/

set_option maxRecDepth 2000

/-- The buffer of two linked chains, baked. -/
def guardedBaked : Baked :=
  (guardedRecorder.raw.finish 0).toOption.getD ⟨[], fun _ => none, 0⟩

theorem guardedBaked_eq : guardedRecorder.raw.finish 0 = .ok guardedBaked := rfl

theorem guarded_within : guardedBaked.Within guarded id id id where
  taskInjective := fun _ _ => id
  semInjective := fun _ _ => id
  inner := by decide
  wait := by decide
  semaphores := by decide
  fence f t hf := by
    have hf : Function.update (fun _ => none) 0 (some 1) f = some t := hf
    by_cases h0 : f = 0
    · subst h0
      rwa [Function.update_self] at hf
    · rw [Function.update_of_ne h0] at hf
      cases hf
  own _ _ g _ t hg := by
    have ht : t = 0 ∨ t = 1 := by
      by_contra hn
      rw [not_or] at hn
      simp [guarded, hn] at hg
    rcases ht with rfl | rfl
    · exact ⟨_, List.mem_cons_self, rfl⟩
    · exact ⟨_, List.mem_cons_of_mem _ List.mem_cons_self, rfl⟩

theorem guarded_roomy : Roomy ⟨1, 2, []⟩ guarded where
  threads := by decide
  home _ := rfl
  placeable := ⟨fun _ _ => nofun, fun _ => List.cons_ne_nil 0 []⟩
  slots := by
    refine ⟨{0}, ?_, by decide⟩
    rintro t ⟨v, q, -, hb⟩
    by_contra hne
    simp only [Finset.mem_singleton] at hne
    simp [guarded, hne] at hb

/-- The buffer was submitted. -/
def guardedSubmitted : (pool ⟨1, 2, []⟩ guarded).State := (poolInit _ _).after (submits 0 [0, 1, 2])

theorem guarded_acyclic (k : Nat) :
    ¬Relation.TransGen (fun e s => (e, s) ∈ guardedRecorder.raw.chainLinks) k k := by
  have hlink : ∀ l ∈ guardedRecorder.raw.chainLinks, l.1 < l.2 := by decide
  have hlt : ∀ e s, Relation.TransGen (fun e s => (e, s) ∈ guardedRecorder.raw.chainLinks) e s →
      e < s := by
    intro e s h
    induction h with
    | single hl => exact hlink _ hl
    | tail _ hl ih => exact ih.trans (hlink _ hl)
  exact fun h => Nat.lt_irrefl k (hlt k k h)

/-- The first chain ends with the panic, and the second one runs. -/
theorem Pool.buffer_completes_guarded :
    System.Inevitable Prompt (BufferDone guardedRecorder guardedBaked id id) guardedSubmitted :=
  buffer_completes true guardedCalls rfl
    (by simp [guardedCalls, Intent.ExtendsAll, Intent.Extends, Intent.step, Intent.new])
    guardedBaked_eq guarded_acyclic guarded_within guarded_roomy (.of_prompts (by decide))
    (fun e sent xs => by
      rw [show caller guardedSubmitted e = .idle from caller_after (by decide) (by decide) e]
      simp)
    (by decide)

end MVSync
