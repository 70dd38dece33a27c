import Mathlib.Order.Monotone.Basic
import MVSync.CommandBuffer.Bake

/-!
# The wiring of a baked command buffer

Baking gives one fresh semaphore to every link between chains that are not
empty, and one to every two neighbours of a chain (`Wire`).  `Wiring` says which
task signals it and which task waits for it, and that no task has any other
semaphore.

A recorded buffer has an empty chain only before its first root command, and no
task of it has a semaphore before it is baked (`Recorder.Recorded`).
-/

namespace MVSync

/-! ## Recorded buffers -/

/-- The commands of a buffer, chain by chain. -/
def RawCommandBuffer.commands (b : RawCommandBuffer) : List Task := b.tasks.flatMap TaskChain.tasks

/-- A call that records a command puts it behind all others. -/
theorem RecordStep.commands {r r' : Recorder} {closed closed' : List TaskChain}
    {current current' : TaskChain} {c : Call} (h : r.raw.Parts closed current)
    (hs : RecordStep r closed current c closed' current' r') :
    (∃ inner, r'.raw.commands = r.raw.commands ++ [r.command inner] ∧ r'.next = r.next + 1) ∨
      r'.raw.commands = r.raw.commands ∧ r'.next = r.next := by
  have hc : r.raw.commands = closed.flatMap TaskChain.tasks ++ current.tasks := by
    simp [RawCommandBuffer.commands, h.tasks]
  have hc' : r'.raw.commands = closed'.flatMap TaskChain.tasks ++ current'.tasks := by
    simp [RawCommandBuffer.commands, (hs.parts h).tasks]
  rw [hc, hc']
  cases hs with
  | @first _ inner | @root _ inner | @chain _ inner =>
      refine .inl ⟨inner, ?_, rfl⟩
      simp [TaskChain.addTask, TaskChain.new]
  | _ => exact .inr ⟨rfl, rfl⟩

/-- What every recorded buffer satisfies. -/
structure Recorder.Recorded (r : Recorder) (closed : List TaskChain) (current : TaskChain) :
    Prop where
  parts : r.raw.Parts closed current
  /-- Only the first chain can be empty, and only before the first root. -/
  opened : (∀ c ∈ closed, c.tasks ≠ []) ∧ (current.tasks = [] → closed = [])
  ids : r.raw.commands.map Task.id = List.range r.next
  command : ∀ x ∈ r.raw.commands, x = .new x.id x.inner r.raw.home
  fences : r.raw.fences.map Prod.snd = List.range r.nextFence

namespace Recorder.Recorded

variable {r r' : Recorder} {closed closed' : List TaskChain} {current current' : TaskChain}
  {c : Call}

theorem new (home : Bool) : (Recorder.new home).Recorded [] .new :=
  ⟨⟨rfl, rfl⟩, ⟨nofun, fun _ => rfl⟩, rfl, nofun, rfl⟩

theorem opened_step (h : r.Recorded closed current)
    (hs : RecordStep r closed current c closed' current' r') :
    (∀ c ∈ closed', c.tasks ≠ []) ∧ (current'.tasks = [] → closed' = []) := by
  obtain ⟨hclosed, hcurrent⟩ := h.opened
  cases hs with
  | first | chain => exact ⟨hclosed, by simp [TaskChain.addTask]⟩
  | root _ _ he =>
      refine ⟨fun c hc => ?_, by simp [TaskChain.addTask]⟩
      rcases List.mem_append.mp hc with hc | hc
      · exact hclosed c hc
      · rwa [List.mem_singleton.mp hc]
  | _ => exact ⟨hclosed, hcurrent⟩

theorem fences_step (h : r.Recorded closed current)
    (hs : RecordStep r closed current c closed' current' r') :
    r'.raw.fences.map Prod.snd = List.range r'.nextFence := by
  cases hs with
  | createFence => simp [h.fences, List.range_succ]
  | _ => exact h.fences

theorem home_step (hs : RecordStep r closed current c closed' current' r') :
    r'.raw.home = r.raw.home := by
  cases hs <;> rfl

theorem step (h : r.Recorded closed current)
    (hs : RecordStep r closed current c closed' current' r') : r'.Recorded closed' current' := by
  have hcommands : r'.raw.commands.map Task.id = List.range r'.next ∧
      ∀ x ∈ r'.raw.commands, x = .new x.id x.inner r.raw.home := by
    rcases hs.commands h.parts with ⟨inner, hc, hn⟩ | ⟨hc, hn⟩
    · rw [hc, hn]
      refine ⟨by simp [h.ids, List.range_succ, Recorder.command, Task.new], fun x hx => ?_⟩
      rcases List.mem_append.mp hx with hx | hx
      · exact h.command x hx
      · rw [List.mem_singleton.mp hx]
        rfl
    · rw [hc, hn]
      exact ⟨h.ids, h.command⟩
  exact ⟨hs.parts h.parts, h.opened_step hs, hcommands.1, home_step hs ▸ hcommands.2,
    h.fences_step hs⟩

/-- A sequence of recording calls. -/
theorem run {cs : List Call} (h : r.Recorded closed current) (hr : r.run cs = some r') :
    ∃ closed' current', r'.Recorded closed' current' := by
  induction cs generalizing r closed current with
  | nil =>
      obtain rfl := Option.some.inj hr
      exact ⟨closed, current, h⟩
  | cons c cs ih =>
      obtain ⟨r₁, hs, hr⟩ := Option.bind_eq_some_iff.mp hr
      obtain ⟨closed₁, current₁, hs⟩ := Recorder.step_inv h.parts hs
      exact ih (h.step hs) hr

end Recorder.Recorded

/-! ## Wires -/

/-- What a semaphore of a baked buffer is for: the `n`-th link, or the tasks `j`
and `j + 1` of chain `k`. -/
inductive Wire where
  | link (n : Nat)
  | next (k j : Nat)
deriving DecidableEq, Repr

namespace Wire

/-- The wires of a buffer. -/
def Of (b : RawCommandBuffer) : Wire → Prop
  | .link n => ∃ e s c d, b.chainLinks[n]? = some (e, s) ∧ b.tasks[e]? = some c ∧
      b.tasks[s]? = some d ∧ c.tasks ≠ [] ∧ d.tasks ≠ []
  | .next k j => ∃ c, b.tasks[k]? = some c ∧ j + 1 < c.tasks.length

/-- Task `j` of chain `k` signals the semaphore: the last task of the dependency
of a link, and the first one of two neighbours. -/
def Signals (b : RawCommandBuffer) (w : Wire) (k j : Nat) : Prop :=
  match w with
  | .link n => ∃ s c, b.chainLinks[n]? = some (k, s) ∧ b.tasks[k]? = some c ∧
      j + 1 = c.tasks.length
  | .next k' j' => k' = k ∧ j' = j

/-- Task `j` of chain `k` waits for the semaphore: the first task of the
successor of a link, and the second one of two neighbours. -/
def Waits (b : RawCommandBuffer) (w : Wire) (k j : Nat) : Prop :=
  match w with
  | .link n => (∃ e, b.chainLinks[n]? = some (e, k)) ∧ j = 0
  | .next k' j' => k' = k ∧ j' + 1 = j

/-- The semaphores of the links come first, then those of the chains. -/
def place (b : RawCommandBuffer) : Wire → Nat
  | .link n => n
  | .next k j => b.chainLinks.length + RawCommandBuffer.offset b.tasks k + j

/-- The semaphore of a wire, when the next one is `next`. -/
def sem (b : RawCommandBuffer) (next : SemId) (w : Wire) : SemId := next + w.place b

end Wire

/-- A task without its semaphores. -/
def Task.unwired (x : Task) : Task := { x with wait := [], semaphores := [] }

/-- `x` is task `j` of chain `k`. -/
def TaskAt (chains : List (List Task)) (k j : Nat) (x : Task) : Prop :=
  ∃ xs, chains[k]? = some xs ∧ xs[j]? = some x

theorem mem_flatten_iff_taskAt {chains : List (List Task)} {x : Task} :
    x ∈ chains.flatten ↔ ∃ k j, TaskAt chains k j x := by
  constructor
  · intro hx
    obtain ⟨xs, hxs, hx⟩ := List.mem_flatten.mp hx
    obtain ⟨k, hk⟩ := List.getElem?_of_mem hxs
    obtain ⟨j, hj⟩ := List.getElem?_of_mem hx
    exact ⟨k, j, xs, hk, hj⟩
  · rintro ⟨k, j, xs, hk, hj⟩
    exact List.mem_flatten.mpr ⟨xs, List.mem_of_getElem? hk, List.mem_of_getElem? hj⟩

/-- The chains of a buffer after baking.  Only the semaphores of the tasks are
new, and every semaphore is the one of a wire. -/
structure Wiring (b : RawCommandBuffer) (first : SemId) (chains : List (List Task))
    (sem : Wire → SemId) : Prop where
  tasks : chains.map (·.map Task.unwired) = b.tasks.map TaskChain.tasks
  fresh : ∀ w : Wire, w.Of b → first ≤ sem w
  distinct : ∀ w w' : Wire, w.Of b → w'.Of b → sem w = sem w' → w = w'
  signals : ∀ k j x, TaskAt chains k j x → x.semaphores.Nodup ∧
    ∀ g, g ∈ x.semaphores ↔ ∃ w : Wire, w.Of b ∧ w.Signals b k j ∧ sem w = g
  waits : ∀ k j x, TaskAt chains k j x → x.wait.Nodup ∧
    ∀ g, g ∈ x.wait ↔ ∃ w : Wire, w.Of b ∧ w.Waits b k j ∧ sem w = g

/-! ## The semaphores are distinct -/

namespace RawCommandBuffer

theorem offset_succ {chains : List TaskChain} {k : Nat} {c : TaskChain}
    (h : chains[k]? = some c) : offset chains (k + 1) = offset chains k + c.gaps := by
  simp [offset, List.take_add_one, h]

theorem offset_mono (chains : List TaskChain) : Monotone (offset chains) := by
  refine monotone_nat_of_le_succ fun k => ?_
  simp [offset, List.take_add_one]

/-- The neighbours of a chain come before those of the next one. -/
theorem offset_add_lt {chains : List TaskChain} {k k' j : Nat} {c : TaskChain}
    (h : chains[k]? = some c) (hj : j + 1 < c.tasks.length) (hk : k < k') :
    offset chains k + j < offset chains k' := by
  have hle : offset chains (k + 1) ≤ offset chains k' := offset_mono chains hk
  rw [offset_succ h, TaskChain.gaps] at hle
  omega

end RawCommandBuffer

theorem Wire.place_injective {b : RawCommandBuffer} {w w' : Wire} (h : w.Of b) (h' : w'.Of b)
    (he : w.place b = w'.place b) : w = w' := by
  have hlink : ∀ {n}, (Wire.link n).Of b → n < b.chainLinks.length := by
    rintro n ⟨e, s, c, d, hl, -⟩
    exact (List.getElem?_eq_some_iff.mp hl).1
  cases w with
  | link n =>
      have hn := hlink h
      cases w' with
      | link n' => exact congrArg Wire.link he
      | next k' j' =>
          simp only [place] at he
          omega
  | next k j =>
      cases w' with
      | link n' =>
          have hn' := hlink h'
          simp only [place] at he
          omega
      | next k' j' =>
          obtain ⟨c, hc, hj⟩ := h
          obtain ⟨c', hc', hj'⟩ := h'
          simp only [place] at he
          rcases Nat.lt_trichotomy k k' with hk | rfl | hk
          · have := RawCommandBuffer.offset_add_lt hc hj hk
            omega
          · rw [Nat.add_left_cancel he]
          · have := RawCommandBuffer.offset_add_lt hc' hj' hk
            omega

/-! ## Baking -/

/-- A command has no semaphores before it is baked. -/
theorem Recorder.Recorded.unwired {r : Recorder} {closed : List TaskChain} {current : TaskChain}
    (h : r.Recorded closed current) {c : TaskChain} {x : Task} (hc : c ∈ r.raw.tasks)
    (hx : x ∈ c.tasks) : x.wait = [] ∧ x.semaphores = [] := by
  rw [h.command x (List.mem_flatMap.mpr ⟨c, hc, hx⟩)]
  exact ⟨rfl, rfl⟩

/-- When there is a task, no chain is empty. -/
theorem Recorder.Recorded.tasks_ne_nil {r : Recorder} {closed : List TaskChain}
    {current : TaskChain} (h : r.Recorded closed current) {c d : TaskChain}
    (hc : c ∈ r.raw.tasks) (hd : d ∈ r.raw.tasks) (hne : d.tasks ≠ []) : c.tasks ≠ [] := by
  rw [h.parts.tasks] at hc hd
  rcases List.mem_append.mp hc with hc | hc
  · exact h.opened.1 c hc
  · obtain rfl := List.mem_singleton.mp hc
    intro he
    rw [h.opened.2 he, List.nil_append] at hd
    exact hne (List.mem_singleton.mp hd ▸ he)

theorem map_unwired_rewire {waits signals : Nat → List SemId} {xs : List Task}
    (h : ∀ x ∈ xs, x.wait = [] ∧ x.semaphores = []) :
    (rewire waits signals xs).map Task.unwired = xs := by
  refine List.ext_getElem? fun j => ?_
  rw [List.getElem?_map, rewire, List.getElem?_mapIdx, Option.map_map]
  cases hx : xs[j]? with
  | none => rfl
  | some x =>
      have hempty := h x (List.mem_of_getElem? hx)
      cases x
      obtain ⟨rfl, rfl⟩ := hempty
      rfl

/-- Task `j` of chain `k` of a baked buffer. -/
theorem taskAt_wired {b : RawCommandBuffer} {next : SemId} {k j : Nat} {x : Task} :
    TaskAt (b.wired next) k j x ↔ ∃ c y, b.tasks[k]? = some c ∧ c.tasks[j]? = some y ∧
      x = y.bindAll (b.waitSems next k j) (b.signalSems next k c.tasks.length j) := by
  simp only [TaskAt, RawCommandBuffer.wired, List.getElem?_mapIdx, Option.map_eq_some_iff]
  constructor
  · rintro ⟨_, ⟨c, hc, rfl⟩, hx⟩
    rw [rewire, List.getElem?_mapIdx, Option.map_eq_some_iff] at hx
    obtain ⟨y, hy, rfl⟩ := hx
    exact ⟨c, y, hc, hy, rfl⟩
  · rintro ⟨c, y, hc, hy, rfl⟩
    exact ⟨_, ⟨c, hc, rfl⟩, by simp [rewire, hy]⟩

theorem taskAt_bind {b : RawCommandBuffer} {k j : Nat} {c : TaskChain} {x : Task} (next : SemId)
    (hc : b.tasks[k]? = some c) (hx : c.tasks[j]? = some x) :
    TaskAt (b.wired next) k j
      (x.bindAll (b.waitSems next k j) (b.signalSems next k c.tasks.length j)) :=
  taskAt_wired.mpr ⟨c, x, hc, hx, rfl⟩

section

variable {b : RawCommandBuffer} {next g : SemId} {k j n : Nat}

theorem mem_signalSems : g ∈ b.signalSems next k n j ↔
    (j + 1 = n ∧ ∃ m s, b.chainLinks[m]? = some (k, s) ∧ next + m = g) ∨
      j + 1 < n ∧ (Wire.next k j).sem b next = g := by
  rw [RawCommandBuffer.signalSems, List.mem_append]
  refine or_congr ?_ ?_
  · split
    case isTrue h => simp [mem_linkSems, h]
    case isFalse h => simp [h]
  · split
    case isTrue h => simp [h, Wire.sem, Wire.place, Nat.add_assoc, eq_comm]
    case isFalse h => simp [h]

theorem mem_waitSems : g ∈ b.waitSems next k j ↔
    (j = 0 ∧ ∃ m e, b.chainLinks[m]? = some (e, k) ∧ next + m = g) ∨
      ∃ i, i + 1 = j ∧ (Wire.next k i).sem b next = g := by
  rw [RawCommandBuffer.waitSems, List.mem_append]
  refine or_congr ?_ ?_
  · split
    case isTrue h => simp [mem_linkSems, h]
    case isFalse h => simp [h]
  · cases j with
    | zero => simp
    | succ j => simp [Wire.sem, Wire.place, Nat.add_assoc, eq_comm]

theorem nodup_signalSems : (b.signalSems next k n j).Nodup := by
  unfold RawCommandBuffer.signalSems
  by_cases h : j + 1 = n
  · simp [h, nodup_linkSems]
  · rw [if_neg h]
    split <;> simp

theorem nodup_waitSems : (b.waitSems next k j).Nodup := by
  unfold RawCommandBuffer.waitSems
  cases j with
  | zero => simp [nodup_linkSems]
  | succ j => simp

end

namespace Recorder.Recorded

variable {r : Recorder} {closed : List TaskChain} {current : TaskChain} {next : SemId}
  {k j : Nat} {x : Task}

/-- A link of a recorded buffer with a task is a wire. -/
theorem link_of (h : r.Recorded closed current) (hin : r.raw.InRange) {n e s : Nat}
    (hl : r.raw.chainLinks[n]? = some (e, s)) {c : TaskChain} (hc : c ∈ r.raw.tasks)
    (hne : c.tasks ≠ []) : (Wire.link n).Of r.raw := by
  obtain ⟨he, hs⟩ := hin.links _ (List.mem_of_getElem? hl)
  have hge := List.getElem?_eq_getElem he
  have hgs := List.getElem?_eq_getElem hs
  exact ⟨e, s, _, _, hl, hge, hgs, h.tasks_ne_nil (List.mem_of_getElem? hge) hc hne,
    h.tasks_ne_nil (List.mem_of_getElem? hgs) hc hne⟩

theorem signals (h : r.Recorded closed current) (hin : r.raw.InRange)
    (hx : TaskAt (r.raw.wired next) k j x) : x.semaphores.Nodup ∧
      ∀ g, g ∈ x.semaphores ↔
        ∃ w : Wire, w.Of r.raw ∧ w.Signals r.raw k j ∧ w.sem r.raw next = g := by
  obtain ⟨c, y, hc, hy, rfl⟩ := taskAt_wired.mp hx
  have hcm := List.mem_of_getElem? hc
  have hne : c.tasks ≠ [] := List.ne_nil_of_mem (List.mem_of_getElem? hy)
  simp only [Task.bindAll, (h.unwired hcm (List.mem_of_getElem? hy)).2, List.nil_append]
  refine ⟨nodup_signalSems, fun g => ?_⟩
  rw [mem_signalSems]
  constructor
  · rintro (⟨hj, m, s, hl, hg⟩ | ⟨hj, hg⟩)
    · exact ⟨.link m, h.link_of hin hl hcm hne, ⟨s, c, hl, hc, hj⟩, hg⟩
    · exact ⟨.next k j, ⟨c, hc, hj⟩, ⟨rfl, rfl⟩, hg⟩
  · rintro ⟨w, hw, hs, hg⟩
    cases w with
    | link m =>
        obtain ⟨s, c', hl, hc', hj⟩ := hs
        obtain rfl := Option.some.inj (hc.symm.trans hc')
        exact .inl ⟨hj, m, s, hl, hg⟩
    | next k' j' =>
        obtain ⟨rfl, rfl⟩ := hs
        obtain ⟨c', hc', hj⟩ := hw
        obtain rfl := Option.some.inj (hc.symm.trans hc')
        exact .inr ⟨hj, hg⟩

theorem waits (h : r.Recorded closed current) (hin : r.raw.InRange)
    (hx : TaskAt (r.raw.wired next) k j x) : x.wait.Nodup ∧
      ∀ g, g ∈ x.wait ↔ ∃ w : Wire, w.Of r.raw ∧ w.Waits r.raw k j ∧ w.sem r.raw next = g := by
  obtain ⟨c, y, hc, hy, rfl⟩ := taskAt_wired.mp hx
  have hcm := List.mem_of_getElem? hc
  have hne : c.tasks ≠ [] := List.ne_nil_of_mem (List.mem_of_getElem? hy)
  simp only [Task.bindAll, (h.unwired hcm (List.mem_of_getElem? hy)).1, List.nil_append]
  refine ⟨nodup_waitSems, fun g => ?_⟩
  rw [mem_waitSems]
  constructor
  · rintro (⟨hj, m, e, hl, hg⟩ | ⟨i, rfl, hg⟩)
    · exact ⟨.link m, h.link_of hin hl hcm hne, ⟨⟨e, hl⟩, hj⟩, hg⟩
    · have hlen : i + 1 < c.tasks.length := (List.getElem?_eq_some_iff.mp hy).1
      exact ⟨.next k i, ⟨c, hc, hlen⟩, ⟨rfl, rfl⟩, hg⟩
  · rintro ⟨w, -, hs, hg⟩
    cases w with
    | link m =>
        obtain ⟨⟨e, hl⟩, hj⟩ := hs
        exact .inl ⟨hj, m, e, hl, hg⟩
    | next k' j' =>
        obtain ⟨rfl, hj⟩ := hs
        exact .inr ⟨j', hj, hg⟩

/-- Baking changes nothing but the semaphores. -/
theorem tasks_wired (h : r.Recorded closed current) :
    (r.raw.wired next).map (·.map Task.unwired) = r.raw.tasks.map TaskChain.tasks := by
  refine List.ext_getElem? fun k => ?_
  rw [List.getElem?_map, List.getElem?_map, RawCommandBuffer.wired, List.getElem?_mapIdx,
    Option.map_map]
  cases hc : r.raw.tasks[k]? with
  | none => rfl
  | some c =>
      exact congrArg some (map_unwired_rewire fun x => h.unwired (List.mem_of_getElem? hc))

theorem wiring (h : r.Recorded closed current) (hin : r.raw.InRange) (next : SemId) :
    Wiring r.raw next (r.raw.wired next) (Wire.sem r.raw next) where
  tasks := h.tasks_wired
  fresh _ _ := Nat.le_add_right _ _
  distinct _ _ hw hw' he := Wire.place_injective hw hw' (Nat.add_left_cancel he)
  signals _ _ _ := h.signals hin
  waits _ _ _ := h.waits hin

/-- What `finish` returned. -/
theorem baked (h : r.Recorded closed current) {baked : Baked}
    (hb : r.raw.finish next = .ok baked) :
    baked.tasks = (r.raw.wired next).flatten ∧
      ∀ i f c x, (i, f) ∈ r.raw.fences → r.raw.tasks[i]? = some c → c.tasks.getLast? = some x →
        baked.fence f = some x.id := by
  have hn : (r.raw.fences.map Prod.snd).Nodup := h.fences ▸ List.nodup_range
  obtain ⟨baked', hb', ht, hf⟩ :=
    RawCommandBuffer.finish_eq (RawCommandBuffer.inRange_of_finish hb) hn next
  obtain rfl : baked = baked' := Except.ok.inj (hb.symm.trans hb')
  exact ⟨ht, hf⟩

end Recorder.Recorded

/-- Baking a recorded buffer, whose fence and link indices are in range, gives
every link between chains that are not empty and every two neighbours of a chain
a fresh semaphore of their own, and binds every fence to the last task of its
chain. -/
theorem finish_wires (home : Bool) (calls : List Call) (r : Recorder) (first : SemId)
    (hr : (Recorder.new home).run calls = some r) (hin : r.raw.InRange) :
    ∃ baked chains sem, r.raw.finish first = .ok baked ∧ baked.tasks = chains.flatten ∧
      Wiring r.raw first chains sem ∧
      ∀ i f c x, (i, f) ∈ r.raw.fences → r.raw.tasks[i]? = some c → c.tasks.getLast? = some x →
        baked.fence f = some x.id := by
  obtain ⟨closed, current, h⟩ := (Recorder.Recorded.new home).run hr
  have hn : (r.raw.fences.map Prod.snd).Nodup := h.fences ▸ List.nodup_range
  obtain ⟨baked, hb, ht, hf⟩ := RawCommandBuffer.finish_eq hin hn first
  exact ⟨baked, _, _, hb, ht, h.wiring hin first, hf⟩

/-- Two chains with two links from the first to the second, and a link of the
second chain to itself. -/
def linkedCalls : List Call :=
  [.rootSync, .chainSync 0, .root, .linkChains 0 1, .linkChains 0 1, .linkChains 1 1,
    .createFence 0]

def linkedRecorder : Recorder := ((Recorder.new true).run linkedCalls).getD (.new true)

theorem linkedRecorder_inRange : linkedRecorder.raw.InRange := ⟨by decide, by decide⟩

/-- The fence of the first chain is bound to its second command. -/
theorem finish_wires_linked :
    ∃ baked chains sem, linkedRecorder.raw.finish 0 = .ok baked ∧ baked.tasks = chains.flatten ∧
      Wiring linkedRecorder.raw 0 chains sem ∧ baked.fence 0 = some 1 := by
  have hr : (Recorder.new true).run linkedCalls = some linkedRecorder := rfl
  obtain ⟨baked, chains, sem, hb, ht, hw, hf⟩ :=
    finish_wires true linkedCalls _ 0 hr linkedRecorder_inRange
  exact ⟨baked, chains, sem, hb, ht, hw, hf 0 0 _ _ (by decide) rfl rfl⟩

end MVSync
