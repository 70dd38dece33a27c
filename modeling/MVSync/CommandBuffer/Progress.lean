import Mathlib.Data.Fintype.Card
import Mathlib.Data.Set.Finite.Basic
import Mathlib.Logic.Relation
import Mathlib.Order.WellFounded
import MVSync.CommandBuffer.Responses
import MVSync.CommandBuffer.Wiring
import MVSync.Pool.Memory

/-!
# Baked command buffers do not deadlock

The tasks of a baked buffer are executed: a task whose `can_execute` holds is
taken, and settled as returned, panicked or cancelled, which signals its
semaphores.

When each chain is completed before the next root command, the predecessor of a
command is the previous command of its chain.  When the links are acyclic as
well, take a chain with a task that is not settled and that no other such chain
is linked to, and the first such task of it.  Everything that this task waits
for is settled.
-/

namespace MVSync

open Function (update)

variable {P : Type}

/-! ## Execution -/

/-- How far a task has come. -/
inductive Progress where
  | waiting
  | started
  | settled
deriving DecidableEq, Repr

/-- A state of the execution: the state cells of the tasks, the semaphores, and
how far each task has come. -/
structure Execution (P : Type) where
  state : TaskId → TaskState P
  sem : SemId → Bool
  progress : TaskId → Progress

namespace Execution

/-- Nothing has happened yet. -/
def init : Execution P := ⟨fun _ => .pending, fun _ => false, fun _ => .waiting⟩

/-- The value of the `state` cell of a task. -/
def predState (m : Execution P) (x : Task) : TaskState P :=
  match x.inner.predecessor with
  | none => .ready
  | some p => m.state p

/-- `Task::can_execute`. -/
def canExecute (m : Execution P) (x : Task) : Bool :=
  x.wait.all m.sem && m.predState x != .pending

/-- A task is taken. -/
def start (m : Execution P) (x : Task) : Execution P :=
  { m with progress := update m.progress x.id .started }

/-- A task is settled with state `st`, and its semaphores are signalled. -/
def settle (m : Execution P) (x : Task) (st : TaskState P) : Execution P where
  state := update m.state x.id st
  sem g := m.sem g || x.semaphores.contains g
  progress := update m.progress x.id .settled

/-- The steps of an execution of `tasks`. -/
inductive Step (tasks : List Task) : Execution P → Execution P → Prop where
  | start {m : Execution P} {x : Task} (hx : x ∈ tasks) (hw : m.progress x.id = .waiting)
      (hc : m.canExecute x = true) : Step tasks m (m.start x)
  | settle {m : Execution P} {x : Task} {st : TaskState P} (hx : x ∈ tasks)
      (hs : m.progress x.id = .started) (ho : st ≠ .pending) : Step tasks m (m.settle x st)

/-- The states that an execution of `tasks` can reach. -/
def Reachable (tasks : List Task) (m : Execution P) : Prop :=
  Relation.ReflTransGen (Step tasks) .init m

/-- The memory of the pool, seen as an execution. -/
def ofShared {V : Type} (m : Shared V P) (progress : TaskId → Progress) : Execution P where
  state t := (m.cell t).state
  sem := m.sem
  progress := progress

/-- `Task::can_execute` is the one of the pool. -/
theorem canExecute_ofShared {V : Type} (m : Shared V P) (progress : TaskId → Progress) (x : Task) :
    (ofShared m progress).canExecute x = m.canExecute x := rfl

/-- What was settled has an outcome, and its semaphores are signalled. -/
def Settled (m : Execution P) (tasks : List Task) : Prop :=
  ∀ x ∈ tasks, m.progress x.id = .settled →
    m.state x.id ≠ .pending ∧ ∀ g ∈ x.semaphores, m.sem g = true

theorem Settled.step {tasks : List Task} {m m' : Execution P} (h : m.Settled tasks)
    (hids : (tasks.map Task.id).Nodup) (hs : Step tasks m m') : m'.Settled tasks := by
  intro y hy hp
  cases hs with
  | @start x =>
      simp only [Execution.start] at hp
      by_cases hxy : y.id = x.id
      · simp [hxy] at hp
      · rw [Function.update_of_ne hxy] at hp
        exact h y hy hp
  | @settle x st hx _ ho =>
      by_cases hxy : y.id = x.id
      · obtain rfl : y = x := List.inj_on_of_nodup_map hids hy hx hxy
        exact ⟨by simpa [Execution.settle] using ho, fun g hg => by simp [Execution.settle, hg]⟩
      · simp only [Execution.settle] at hp
        rw [Function.update_of_ne hxy] at hp
        obtain ⟨hst, hsem⟩ := h y hy hp
        exact ⟨by simpa [Execution.settle, hxy] using hst,
          fun g hg => by simp [Execution.settle, hsem g hg]⟩

theorem Reachable.settled {tasks : List Task} {m : Execution P} (h : m.Reachable tasks)
    (hids : (tasks.map Task.id).Nodup) : m.Settled tasks := by
  induction h with
  | refl => exact fun _ _ hp => by cases hp
  | tail _ hs ih => exact ih.step hids hs

end Execution

/-! ## Chains that are completed one after the other -/

/-- The command before position `j` of a chain. -/
def TaskChain.before (c : TaskChain) : Nat → Option TaskId
  | 0 => none
  | j + 1 => (c.tasks[j]?).map Task.id

/-- Every command of a chain continues the one before it. -/
def TaskChain.Linear (c : TaskChain) : Prop :=
  ∀ (j : Nat) (x : Task), c.tasks[j]? = some x → x.inner.predecessor = c.before j

theorem TaskChain.Linear.addTask {c : TaskChain} {x : Task} (h : c.Linear)
    (hx : x.inner.predecessor = c.tasks.getLast?.map Task.id) : (c.addTask x).Linear := by
  have hbefore : ∀ {j : Nat}, j ≤ c.tasks.length → (c.addTask x).before j = c.before j := by
    intro j hj
    cases j with
    | zero => rfl
    | succ j =>
        simp only [before, tasks_addTask, List.getElem?_append_left (Nat.lt_of_succ_le hj)]
  intro j y hy
  have hj : j ≤ c.tasks.length := by
    have := (List.getElem?_eq_some_iff.mp hy).1
    simp only [tasks_addTask, List.length_append, List.length_singleton] at this
    omega
  rw [hbefore hj]
  rcases Nat.lt_or_eq_of_le hj with hj | rfl
  · rw [tasks_addTask, List.getElem?_append_left hj] at hy
    exact h j y hy
  · obtain rfl : x = y := by simpa using hy
    rw [hx, List.getLast?_eq_getElem?]
    cases hl : c.tasks.length with
    | zero => simp [List.length_eq_zero_iff.mp hl, before]
    | succ j => rfl

/-- The chains of a recording whose commands all extend the latest chain. -/
structure Linear (r : Recorder) (i : Intent) (closed : List TaskChain) (current : TaskChain) :
    Prop where
  chains : ∀ c ∈ closed ++ [current], c.Linear
  /-- Only the last command of the latest chain can be extended. -/
  last : ∀ p ∈ r.live, i.Latest p → current.tasks.getLast?.map Task.id = some p

namespace Linear

variable {r r' : Recorder} {i : Intent} {calm : Bool} {closed closed' : List TaskChain}
  {current current' : TaskChain} {root : TaskId} {c : Call}

theorem new (home : Bool) : Linear (.new home) .new [] .new where
  chains := by simp [TaskChain.Linear, TaskChain.new]
  last := nofun

/-- A root command. -/
theorem root_step (h : Linear r i closed current) (hw : Watched r i calm closed current root)
    {x : Task} (hx : x.inner.predecessor = none) (hid : x.id = r.next) {empty : TaskChain}
    (he : empty.tasks = []) (hsub : ∀ c ∈ closed', c ∈ closed ++ [current])
    (b : RawCommandBuffer) :
    Linear (r.record b) ⟨i.roots + 1, i.origin ++ [i.roots]⟩ closed' (empty.addTask x) := by
  have hempty : empty.Linear := by simp [TaskChain.Linear, he]
  refine ⟨fun c hc => ?_, fun p hp hlp => ?_⟩
  · rcases List.mem_append.mp hc with hc | hc
    · exact h.chains c (hsub c hc)
    · rw [List.mem_singleton.mp hc]
      exact hempty.addTask (by simp [hx, he])
  · rcases List.mem_cons.mp hp with rfl | hp
    · simp [TaskChain.addTask, hid]
    · obtain ⟨o, ho⟩ := hw.live p hp
      have hlt := hw.origins o (List.mem_of_getElem? ho)
      simp only [Intent.Latest, Nat.add_sub_cancel] at hlp
      rw [List.getElem?_append_left (List.getElem?_eq_some_iff.mp ho).1, ho] at hlp
      exact absurd (Option.some.inj hlp) (Nat.ne_of_lt hlt)

/-- A command that extends the latest chain. -/
theorem chain_step (h : Linear r i closed current) (hw : Watched r i calm closed current root)
    {p : TaskId} (hm : p ∈ r.live) (hl : i.Latest p) {x : Task}
    (hx : x.inner.predecessor = some p) (hid : x.id = r.next) {b : RawCommandBuffer} :
    Linear (Recorder.record { r with live := r.live.erase p } b)
      { i with origin := i.origin ++ [i.origin[p]?.getD 0] } closed (current.addTask x) := by
  refine ⟨fun c hc => ?_, fun q hq hlq => ?_⟩
  · rcases List.mem_append.mp hc with hc | hc
    · exact h.chains c (List.mem_append_left _ hc)
    · rw [List.mem_singleton.mp hc]
      refine (h.chains current (by simp)).addTask ?_
      rw [hx, h.last p hm hl]
  · rcases List.mem_cons.mp hq with rfl | hq
    · simp [TaskChain.addTask, hid]
    · obtain ⟨hne, hq⟩ := (List.Nodup.mem_erase_iff hw.nodup).mp hq
      obtain ⟨o, ho⟩ := hw.live q hq
      have hold : i.Latest q := by
        rwa [Intent.Latest, List.getElem?_append_left (List.getElem?_eq_some_iff.mp ho).1] at hlq
      exact absurd (hw.one q hq p hm (hold.trans hl.symm)) hne

theorem step (h : Linear r i closed current) (hw : Watched r i calm closed current root)
    (he : i.Extends c) (hs : RecordStep r closed current c closed' current' r') :
    Linear r' (i.step c) closed' current' := by
  cases hs with
  | first hc hp hempty =>
      have hl := h.root_step hw (x := r.command _) hp rfl hempty
        fun c hc => List.mem_append_left _ hc
      rcases Call.root_of_inner hc hp with rfl | rfl <;> exact hl _
  | root hc hp =>
      have hl := h.root_step hw (x := r.command _) hp rfl
        (show TaskChain.new.tasks = [] from rfl) fun c hc => hc
      rcases Call.root_of_inner hc hp with rfl | rfl <;> exact hl _
  | chain hc hp hm =>
      rcases Call.chain_of_inner hc hp with rfl | rfl <;>
        exact h.chain_step hw hm he hp rfl
  | response =>
      refine ⟨fun c hc => ?_, fun p hp => h.last p (List.mem_of_mem_erase hp)⟩
      rcases List.mem_append.mp hc with hc | hc
      · exact h.chains c (List.mem_append_left _ hc)
      · rw [List.mem_singleton.mp hc]
        exact fun j x hx => h.chains current (by simp) j x hx
  | drop => exact ⟨h.chains, fun p hp => h.last p (List.mem_of_mem_erase hp)⟩
  | linkChains => exact ⟨h.chains, h.last⟩
  | createFence => exact ⟨h.chains, h.last⟩

/-- A sequence of recording calls that completes each chain before the next. -/
theorem run {cs : List Call} (h : Linear r i closed current)
    (hw : Watched r i calm closed current root) (he : i.ExtendsAll cs) (hr : r.run cs = some r') :
    ∃ closed' current', r'.raw.Parts closed' current' ∧ Linear r' (i.run cs) closed' current' := by
  induction cs generalizing r i calm closed current root with
  | nil =>
      obtain rfl := Option.some.inj hr
      exact ⟨closed, current, hw.parts, h⟩
  | cons c cs ih =>
      obtain ⟨r₁, hs, hr⟩ := Option.bind_eq_some_iff.mp hr
      obtain ⟨closed₁, current₁, hs⟩ := Recorder.step_inv hw.parts hs
      obtain ⟨root₁, hw₁⟩ := hw.step hs
      exact ih (h.step hw he.1 hs) hw₁ he.2 hr

end Linear

/-! ## Progress -/

/-- A nonempty finite set has an element that no other one is related to, when
the relation is acyclic. -/
theorem exists_first {α : Type} {R : α → α → Prop} (h : ∀ a, ¬Relation.TransGen R a a) {S : Set α}
    (hf : S.Finite) (hs : S.Nonempty) : ∃ a ∈ S, ∀ b ∈ S, ¬R b a := by
  have : Finite S := hf
  let before : S → S → Prop := fun a b => Relation.TransGen R a b
  have : IsTrans S before := ⟨fun _ _ _ => Relation.TransGen.trans⟩
  have : Std.Irrefl before := ⟨fun a => h a⟩
  obtain ⟨a, ha⟩ := hs
  obtain ⟨m, -, hm⟩ :=
    (Finite.wellFounded_of_trans_of_irrefl before).has_min Set.univ ⟨⟨a, ha⟩, trivial⟩
  exact ⟨m, m.2, fun b hb hr => hm ⟨b, hb⟩ trivial (.single hr)⟩

/-- The task that signals a semaphore is in front of the one that waits for it, in
its chain or by a link. -/
theorem Wire.Of.signals_of_waits {b : RawCommandBuffer} {w : Wire} {k j : Nat} (hw : w.Of b)
    (h : w.Waits b k j) :
    ∃ e i c, b.tasks[e]? = some c ∧ i < c.tasks.length ∧ w.Signals b e i ∧
      (e = k ∧ i < j ∨ (e, k) ∈ b.chainLinks) := by
  cases w with
  | link n =>
      obtain ⟨e, s, c, d, hl, hc, -, hne, -⟩ := hw
      obtain ⟨⟨e', hl'⟩, -⟩ := h
      obtain ⟨rfl, rfl⟩ := Prod.mk.inj (Option.some.inj (hl.symm.trans hl'))
      have hlen : c.tasks.length ≠ 0 := mt List.length_eq_zero_iff.mp hne
      exact ⟨e, _, c, hc, Nat.sub_one_lt hlen, ⟨s, c, hl, hc, Nat.succ_pred hlen⟩,
        .inr (List.mem_of_getElem? hl)⟩
  | next k' i =>
      obtain ⟨rfl, rfl⟩ := h
      obtain ⟨c, hc, hlen⟩ := hw
      exact ⟨k', i, c, hc, Nat.lt_of_succ_lt hlen, ⟨rfl, rfl⟩, .inl ⟨rfl, Nat.lt_succ_self i⟩⟩

namespace Recorder.Recorded

variable {r : Recorder} {closed : List TaskChain} {current : TaskChain} {first : SemId}

/-- Baking leaves the numbers of the commands as they are. -/
theorem ids_wired (h : r.Recorded closed current) :
    (r.raw.wired first).flatten.map Task.id = List.range r.next := by
  have hid : ∀ xs : List Task, xs.map Task.id = (xs.map Task.unwired).map Task.id := fun xs => by
    rw [List.map_map]
    rfl
  rw [hid, List.map_flatten, h.tasks_wired, ← List.flatMap_def]
  exact h.ids

/-- What a command waits for is settled, when the commands before it in its chain
are settled, and those of the chains that are linked to it. -/
theorem canExecute_wired (h : r.Recorded closed current) (hin : r.raw.InRange)
    (hlin : ∀ c ∈ r.raw.tasks, c.Linear) {m : Execution P}
    (hm : m.Settled (r.raw.wired first).flatten) {k j : Nat} {x : Task}
    (hx : TaskAt (r.raw.wired first) k j x)
    (hchain : ∀ i < j, ∀ y, TaskAt (r.raw.wired first) k i y → m.progress y.id = .settled)
    (hlinks : ∀ e, (e, k) ∈ r.raw.chainLinks → ∀ i y, TaskAt (r.raw.wired first) e i y →
      m.progress y.id = .settled) : m.canExecute x = true := by
  have hwaits : x.wait.all m.sem = true := by
    refine List.all_eq_true.mpr fun g hg => ?_
    obtain ⟨w, hw, hwait, hg⟩ := ((h.waits hin hx).2 g).mp hg
    obtain ⟨e, i, c, hc, hi, hs, hbefore⟩ := hw.signals_of_waits hwait
    have hy := taskAt_bind first hc (List.getElem?_eq_getElem hi)
    have hsig := ((h.signals hin hy).2 g).mpr ⟨w, hw, hs, hg⟩
    rcases hbefore with ⟨rfl, hi⟩ | hl
    · exact (hm _ (mem_flatten_iff_taskAt.mpr ⟨_, _, hy⟩) (hchain i hi _ hy)).2 g hsig
    · exact (hm _ (mem_flatten_iff_taskAt.mpr ⟨_, _, hy⟩) (hlinks e hl i _ hy)).2 g hsig
  obtain ⟨c, y, hc, hy, rfl⟩ := taskAt_wired.mp hx
  have hpred := hlin c (List.mem_of_getElem? hc) j y hy
  have hstate : m.predState (y.bindAll (r.raw.waitSems first k j)
      (r.raw.signalSems first k c.tasks.length j)) ≠ .pending := by
    simp only [Execution.predState, Task.bindAll, hpred]
    cases j with
    | zero => simp [TaskChain.before]
    | succ i =>
        have hlen : i < c.tasks.length :=
          Nat.lt_of_succ_lt (List.getElem?_eq_some_iff.mp hy).1
        have hz := taskAt_bind first hc (List.getElem?_eq_getElem hlen)
        rw [TaskChain.before, List.getElem?_eq_getElem hlen]
        exact (hm _ (mem_flatten_iff_taskAt.mpr ⟨_, _, hz⟩) (hchain i (Nat.lt_succ_self i) _ hz)).1
  simp [Execution.canExecute, hwaits, hstate]

end Recorder.Recorded

/-- When each chain of a recording is completed before the next root command and
the links are acyclic, an execution of the baked tasks never gets stuck: while
some task is not settled, a task is started or can be executed. -/
theorem baked_progress (home : Bool) (calls : List Call) (r : Recorder) (first : SemId)
    (hr : (Recorder.new home).run calls = some r) (he : Intent.new.ExtendsAll calls)
    (hin : r.raw.InRange)
    (hac : ∀ k, ¬Relation.TransGen (fun e s => (e, s) ∈ r.raw.chainLinks) k k) :
    ∃ baked, r.raw.finish first = .ok baked ∧
      ∀ m : Execution P, m.Reachable baked.tasks →
        (∃ x ∈ baked.tasks, m.progress x.id ≠ .settled) →
        ∃ x ∈ baked.tasks, m.progress x.id = .started ∨
          m.progress x.id = .waiting ∧ m.canExecute x = true := by
  obtain ⟨closed, current, h⟩ := (Recorder.Recorded.new home).run hr
  obtain ⟨closed', current', hp, hlin⟩ := (Linear.new home).run (Watched.new home) he hr
  have hlin : ∀ c ∈ r.raw.tasks, c.Linear := fun c hc => hlin.chains c (hp.tasks ▸ hc)
  have hn : (r.raw.fences.map Prod.snd).Nodup := h.fences ▸ List.nodup_range
  obtain ⟨baked, hb, ht, -⟩ := RawCommandBuffer.finish_eq hin hn first
  refine ⟨baked, hb, fun m hm hu => ?_⟩
  rw [ht] at hm hu ⊢
  have hset : m.Settled (r.raw.wired first).flatten :=
    hm.settled (h.ids_wired ▸ List.nodup_range)
  -- a chain with a task that is not settled, and no such chain linked to it
  let unsettled : Nat → Nat → Prop := fun k j =>
    ∃ x, TaskAt (r.raw.wired first) k j x ∧ m.progress x.id ≠ .settled
  have hfin : {k | ∃ j, unsettled k j}.Finite := by
    refine (Set.finite_lt_nat (r.raw.wired first).length).subset ?_
    rintro k ⟨j, x, ⟨c, hc, -⟩, -⟩
    exact (List.getElem?_eq_some_iff.mp hc).1
  have hne : {k | ∃ j, unsettled k j}.Nonempty := by
    obtain ⟨x, hx, hu⟩ := hu
    obtain ⟨k, j, hx⟩ := mem_flatten_iff_taskAt.mp hx
    exact ⟨k, j, x, hx, hu⟩
  obtain ⟨k, hk, hfirst⟩ := exists_first hac hfin hne
  -- the first such task of the chain
  classical
  obtain ⟨x, hx, hu⟩ := Nat.find_spec hk
  refine ⟨x, mem_flatten_iff_taskAt.mpr ⟨k, _, hx⟩, ?_⟩
  cases hprog : m.progress x.id with
  | started => exact .inl rfl
  | settled => exact absurd hprog hu
  | waiting =>
      refine .inr ⟨rfl, h.canExecute_wired hin hlin hset hx (fun i hi y hy => ?_)
        fun e hl i y hy => ?_⟩
      · by_contra hn
        exact Nat.find_min hk hi ⟨y, hy, hn⟩
      · by_contra hn
        exact hfirst e ⟨i, y, hy, hn⟩ hl

/-- Two chains with two links from the first to the second. -/
def orderedCalls : List Call :=
  [.rootSync, .chainSync 0, .root, .chain 2, .linkChains 0 1, .linkChains 0 1]

def orderedRecorder : Recorder := ((Recorder.new true).run orderedCalls).getD (.new true)

/-- The links of the recording go upwards. -/
theorem orderedRecorder_lt {e s : Nat}
    (h : Relation.TransGen (fun e s => (e, s) ∈ orderedRecorder.raw.chainLinks) e s) : e < s := by
  have hlink : ∀ l ∈ orderedRecorder.raw.chainLinks, l.1 < l.2 := by decide
  induction h with
  | single hl => exact hlink _ hl
  | tail _ hl ih => exact ih.trans (hlink _ hl)

/-- While a command of the two chains is not settled, one is started or can be
executed. -/
theorem baked_progress_ordered :
    ∃ baked, orderedRecorder.raw.finish 0 = .ok baked ∧
      ∀ m : Execution Unit, m.Reachable baked.tasks →
        (∃ x ∈ baked.tasks, m.progress x.id ≠ .settled) →
        ∃ x ∈ baked.tasks, m.progress x.id = .started ∨
          m.progress x.id = .waiting ∧ m.canExecute x = true :=
  baked_progress true orderedCalls orderedRecorder 0 rfl
    (by simp [orderedCalls, Intent.ExtendsAll, Intent.Extends, Intent.step, Intent.new])
    ⟨by decide, by decide⟩ fun _ h => Nat.lt_irrefl _ (orderedRecorder_lt h)

end MVSync
