import MVSync.Task

/-!
# Recording a command buffer

`RawCommandBuffer` of `command_buffers/buffer.rs`, up to the call of `finish`.

A `BufferedCommand` is consumed by the call that chains the next command to it,
so the recorder keeps the list of the ones that are alive.  It stands for the
type system: the calls that read it would not compile without the value.

The commands of a buffer are numbered in the order in which they are recorded.
A controller names the task that it controls.  Indexing a vector out of bounds
panics, which is `none` here.
-/

namespace MVSync

/-- `Task::from_function` and the other constructors. -/
def Task.new (id : TaskId) (inner : Inner) (home : Bool) : Task where
  id := id
  inner := inner
  wait := []
  semaphores := []
  preferredThread := none
  notOn := []
  home := home

/-! ## Task chains -/

/-- `TaskChain`. -/
structure TaskChain where
  tasks : List Task
  controllers : List TaskId
deriving DecidableEq, Repr

namespace TaskChain

/-- `TaskChain::new`. -/
def new : TaskChain := ⟨[], []⟩

/-- `TaskChain::add_task`, with the controller of the task. -/
def addTask (c : TaskChain) (x : Task) : TaskChain :=
  ⟨c.tasks ++ [x], c.controllers ++ [x.id]⟩

/-- `TaskChain::get_controllers`. -/
def getControllers (c : TaskChain) : List TaskId × TaskChain :=
  (c.controllers, { c with controllers := [] })

/-- The commands of a chain. -/
def ids (c : TaskChain) : List TaskId := c.tasks.map Task.id

@[simp] theorem ids_new : new.ids = [] := rfl

@[simp] theorem tasks_addTask (c : TaskChain) (x : Task) :
    (c.addTask x).tasks = c.tasks ++ [x] := rfl

@[simp] theorem ids_addTask (c : TaskChain) (x : Task) : (c.addTask x).ids = c.ids ++ [x.id] := by
  simp [ids, addTask]

theorem ids_eq_nil {c : TaskChain} : c.ids = [] ↔ c.tasks = [] := by simp [ids]

end TaskChain

/-! ## The raw buffer -/

/-- `RawCommandBuffer`.  `home` says that its signal is the one of the queue that
the buffer is submitted to. -/
structure RawCommandBuffer where
  tasks : List TaskChain
  chainLinks : List (Nat × Nat)
  fences : List (Nat × FenceId)
  group : Nat
  home : Bool
deriving DecidableEq, Repr

namespace RawCommandBuffer

/-- The buffer that `CommandBuffer::new` writes. -/
def new (home : Bool) : RawCommandBuffer := ⟨[.new], [], [], 0, home⟩

/-- The head of `add_task` and `add_sync_task`: a root command opens a new chain,
unless the current one is empty. -/
def openChain (b : RawCommandBuffer) : Option RawCommandBuffer :=
  b.tasks[b.group]?.map fun chain =>
    if chain.tasks.isEmpty then b
    else { b with group := b.group + 1, tasks := b.tasks ++ [.new] }

/-- `self.tasks[self.group].add_task(..)`. -/
def push (b : RawCommandBuffer) (x : Task) : Option RawCommandBuffer :=
  b.tasks[b.group]?.map fun chain => { b with tasks := b.tasks.set b.group (chain.addTask x) }

/-- `RawCommandBuffer::add_sync_task`. -/
def addSyncTask (b : RawCommandBuffer) (id : TaskId) : Option RawCommandBuffer :=
  b.openChain.bind fun b => b.push (.new id .fromFunction b.home)

/-- `RawCommandBuffer::add_task`. -/
def addTask (b : RawCommandBuffer) (id : TaskId) : Option RawCommandBuffer :=
  b.openChain.bind fun b => b.push (.new id .fromAsync b.home)

/-- `RawCommandBuffer::add_chained_task`. -/
def addChainedTask (b : RawCommandBuffer) (id predecessor : TaskId) : Option RawCommandBuffer :=
  b.push (.new id (.fromAsyncContinuation predecessor) b.home)

/-- `RawCommandBuffer::add_sync_chained_task`. -/
def addSyncChainedTask (b : RawCommandBuffer) (id predecessor : TaskId) :
    Option RawCommandBuffer :=
  b.push (.new id (.fromContinuation predecessor) b.home)

/-- `RawCommandBuffer::get_controllers`. -/
def getControllers (b : RawCommandBuffer) : Option (List TaskId × RawCommandBuffer) :=
  b.tasks[b.group]?.map fun chain =>
    (chain.getControllers.1, { b with tasks := b.tasks.set b.group chain.getControllers.2 })

end RawCommandBuffer

/-! ## Recording -/

/-- A recording call. -/
inductive Call where
  /-- `CommandBufferEntry::add_sync_command`. -/
  | rootSync
  /-- `CommandBufferEntry::add_command`. -/
  | root
  /-- `Command::add_sync_command`, on the buffered command `p`. -/
  | chainSync (p : TaskId)
  /-- `Command::add_command`, on the buffered command `p`. -/
  | chain (p : TaskId)
  /-- `Command::response`, on the buffered command `p`. -/
  | response (p : TaskId)
  /-- The buffered command `p` is dropped. -/
  | drop (p : TaskId)
  | linkChains (dependency successor : Nat)
  | createFence (taskChain : Nat)
deriving DecidableEq, Repr

/-- A buffer that is being recorded. -/
structure Recorder where
  raw : RawCommandBuffer
  /-- The number of the next command. -/
  next : TaskId
  /-- The buffered commands that are alive. -/
  live : List TaskId
  nextFence : FenceId
deriving DecidableEq, Repr

namespace Recorder

/-- The recorder when `CommandBuffer::new` returns. -/
def new (home : Bool) : Recorder := ⟨.new home, 0, [], 0⟩

/-- A command was recorded, and its handle is in a new buffered command. -/
def record (r : Recorder) (raw : RawCommandBuffer) : Recorder :=
  { r with raw := raw, next := r.next + 1, live := r.next :: r.live }

/-- The buffered command `p` is consumed. -/
def consume (r : Recorder) (p : TaskId) : Option Recorder :=
  if p ∈ r.live then some { r with live := r.live.erase p } else none

/-- One recording call. -/
def step (r : Recorder) : Call → Option Recorder
  | .rootSync => (r.raw.addSyncTask r.next).map r.record
  | .root => (r.raw.addTask r.next).map r.record
  | .chainSync p =>
      (r.consume p).bind fun r => (r.raw.addSyncChainedTask r.next p).map r.record
  | .chain p => (r.consume p).bind fun r => (r.raw.addChainedTask r.next p).map r.record
  | .response p =>
      (r.consume p).bind fun r => r.raw.getControllers.map fun c => { r with raw := c.2 }
  | .drop p => r.consume p
  | .linkChains d s =>
      some { r with raw := { r.raw with chainLinks := r.raw.chainLinks ++ [(d, s)] } }
  | .createFence i =>
      some { r with raw := { r.raw with fences := r.raw.fences ++ [(i, r.nextFence)] },
                    nextFence := r.nextFence + 1 }

/-- A sequence of recording calls. -/
def run (r : Recorder) : List Call → Option Recorder
  | [] => some r
  | c :: cs => (r.step c).bind fun r => r.run cs

end Recorder

/-! ## The parts of a buffer -/

/-- The chains before the current group, and the chain of that group, which is
the last one. -/
structure RawCommandBuffer.Parts (b : RawCommandBuffer) (closed : List TaskChain)
    (current : TaskChain) : Prop where
  tasks : b.tasks = closed ++ [current]
  group : b.group = closed.length

/-- The buffer with other chains. -/
def RawCommandBuffer.withParts (b : RawCommandBuffer) (closed : List TaskChain)
    (current : TaskChain) : RawCommandBuffer :=
  { b with tasks := closed ++ [current], group := closed.length }

namespace RawCommandBuffer.Parts

variable {b b' : RawCommandBuffer} {closed : List TaskChain} {current : TaskChain} {x : Task}

theorem withParts (b : RawCommandBuffer) (closed : List TaskChain) (current : TaskChain) :
    (b.withParts closed current).Parts closed current := ⟨rfl, rfl⟩

theorem getElem? (h : b.Parts closed current) : b.tasks[b.group]? = some current := by
  rw [h.tasks, h.group]
  simp

/-- The chain of the current group is replaced. -/
theorem set (h : b.Parts closed current) (c : TaskChain) :
    { b with tasks := b.tasks.set b.group c } = b.withParts closed c := by
  simp [RawCommandBuffer.withParts, h.tasks, h.group]

theorem push (h : b.Parts closed current) (hb : b.push x = some b') :
    b' = b.withParts closed (current.addTask x) := by
  rw [RawCommandBuffer.push, h.getElem?, Option.map_some, h.set] at hb
  exact (Option.some.inj hb).symm

theorem getControllers (h : b.Parts closed current) :
    b.getControllers =
      some (current.controllers, b.withParts closed { current with controllers := [] }) := by
  rw [RawCommandBuffer.getControllers, h.getElem?, Option.map_some, h.set]
  rfl

/-- A root command goes to an empty chain. -/
theorem openChain (h : b.Parts closed current) (hb : b.openChain = some b') :
    current.tasks = [] ∧ b' = b ∨
      current.tasks ≠ [] ∧ b' = b.withParts (closed ++ [current]) .new := by
  rw [RawCommandBuffer.openChain, h.getElem?, Option.map_some] at hb
  obtain rfl := Option.some.inj hb
  split
  case isTrue he => exact .inl ⟨List.isEmpty_iff.mp he, rfl⟩
  case isFalse he =>
    refine .inr ⟨fun hn => he (List.isEmpty_iff.mpr hn), ?_⟩
    simp [RawCommandBuffer.withParts, h.tasks, h.group]

end RawCommandBuffer.Parts

/-- The future of the command that a call records. -/
def Call.inner : Call → Option Inner
  | .rootSync => some .fromFunction
  | .root => some .fromAsync
  | .chainSync p => some (.fromContinuation p)
  | .chain p => some (.fromAsyncContinuation p)
  | _ => none

theorem Call.root_of_inner {c : Call} {inner : Inner} (hc : c.inner = some inner)
    (hp : inner.predecessor = none) : c = .rootSync ∨ c = .root := by
  cases c <;> simp only [Call.inner, Option.some.injEq, reduceCtorEq] at hc <;> subst hc <;>
    simp [Inner.predecessor] at hp ⊢

theorem Call.chain_of_inner {c : Call} {inner : Inner} {p : TaskId} (hc : c.inner = some inner)
    (hp : inner.predecessor = some p) : c = .chainSync p ∨ c = .chain p := by
  cases c <;> simp only [Call.inner, Option.some.injEq, reduceCtorEq] at hc <;> subst hc <;>
    simp_all [Inner.predecessor]

/-- The command that is recorded next. -/
def Recorder.command (r : Recorder) (inner : Inner) : Task := .new r.next inner r.raw.home

@[simp] theorem Recorder.command_id (r : Recorder) (inner : Inner) :
    (r.command inner).id = r.next := rfl

/-- The recording calls, on a buffer with the chains `closed` and `current`. -/
inductive RecordStep (r : Recorder) (closed : List TaskChain) (current : TaskChain) :
    Call → List TaskChain → TaskChain → Recorder → Prop where
  | first {c : Call} {inner : Inner} (hc : c.inner = some inner) (hp : inner.predecessor = none)
      (he : current.tasks = []) :
      RecordStep r closed current c closed (current.addTask (r.command inner))
        (r.record (r.raw.withParts closed (current.addTask (r.command inner))))
  | root {c : Call} {inner : Inner} (hc : c.inner = some inner) (hp : inner.predecessor = none)
      (he : current.tasks ≠ []) :
      RecordStep r closed current c (closed ++ [current]) (.addTask .new (r.command inner))
        (r.record (r.raw.withParts (closed ++ [current]) (.addTask .new (r.command inner))))
  | chain {c : Call} {inner : Inner} {p : TaskId} (hc : c.inner = some inner)
      (hp : inner.predecessor = some p) (hm : p ∈ r.live) :
      RecordStep r closed current c closed (current.addTask (r.command inner))
        (Recorder.record { r with live := r.live.erase p }
          (r.raw.withParts closed (current.addTask (r.command inner))))
  | response {p : TaskId} (hm : p ∈ r.live) :
      RecordStep r closed current (.response p) closed { current with controllers := [] }
        { r with live := r.live.erase p
                 raw := r.raw.withParts closed { current with controllers := [] } }
  | drop {p : TaskId} (hm : p ∈ r.live) :
      RecordStep r closed current (.drop p) closed current { r with live := r.live.erase p }
  | linkChains (d s : Nat) :
      RecordStep r closed current (.linkChains d s) closed current
        { r with raw := { r.raw with chainLinks := r.raw.chainLinks ++ [(d, s)] } }
  | createFence (i : Nat) :
      RecordStep r closed current (.createFence i) closed current
        { r with raw := { r.raw with fences := r.raw.fences ++ [(i, r.nextFence)] }
                 nextFence := r.nextFence + 1 }

namespace Recorder

variable {r r' : Recorder} {closed : List TaskChain} {current : TaskChain} {c : Call}

theorem consume_eq {p : TaskId} (h : r.consume p = some r') :
    p ∈ r.live ∧ r' = { r with live := r.live.erase p } := by
  unfold consume at h
  split at h
  case isTrue hp => exact ⟨hp, (Option.some.inj h).symm⟩
  case isFalse => cases h

/-- A root command is recorded. -/
theorem root_step (h : r.raw.Parts closed current) {inner : Inner} (hc : c.inner = some inner)
    (hp : inner.predecessor = none)
    (hs : (r.raw.openChain.bind fun b => b.push (.new r.next inner b.home)).map r.record =
      some r') :
    ∃ closed' current', RecordStep r closed current c closed' current' r' := by
  obtain ⟨b', hb, rfl⟩ := Option.map_eq_some_iff.mp hs
  obtain ⟨b, ho, hb⟩ := Option.bind_eq_some_iff.mp hb
  rcases h.openChain ho with ⟨he, rfl⟩ | ⟨he, rfl⟩
  · obtain rfl := h.push hb
    exact ⟨_, _, .first hc hp he⟩
  · obtain rfl := (RawCommandBuffer.Parts.withParts _ _ _).push hb
    exact ⟨_, _, .root hc hp he⟩

/-- A chained command is recorded. -/
theorem chain_step (h : r.raw.Parts closed current) {inner : Inner} {p : TaskId}
    (hc : c.inner = some inner) (hp : inner.predecessor = some p)
    (hs : ((r.consume p).bind fun r => (r.raw.push (.new r.next inner r.raw.home)).map r.record) =
      some r') :
    ∃ closed' current', RecordStep r closed current c closed' current' r' := by
  obtain ⟨r₁, hcon, hs⟩ := Option.bind_eq_some_iff.mp hs
  obtain ⟨hm, rfl⟩ := consume_eq hcon
  obtain ⟨b, hb, rfl⟩ := Option.map_eq_some_iff.mp hs
  obtain rfl := h.push hb
  exact ⟨_, _, .chain hc hp hm⟩

theorem step_inv (h : r.raw.Parts closed current) (hs : r.step c = some r') :
    ∃ closed' current', RecordStep r closed current c closed' current' r' := by
  cases c with
  | rootSync => exact root_step h rfl rfl hs
  | root => exact root_step h rfl rfl hs
  | chainSync p => exact chain_step h rfl rfl hs
  | chain p => exact chain_step h rfl rfl hs
  | response p =>
      obtain ⟨r₁, hcon, hs⟩ := Option.bind_eq_some_iff.mp hs
      obtain ⟨hm, rfl⟩ := consume_eq hcon
      rw [h.getControllers] at hs
      obtain rfl := Option.some.inj hs
      exact ⟨_, _, .response hm⟩
  | drop p =>
      obtain ⟨hm, rfl⟩ := consume_eq hs
      exact ⟨_, _, .drop hm⟩
  | linkChains d s =>
      obtain rfl := Option.some.inj hs
      exact ⟨_, _, .linkChains d s⟩
  | createFence i =>
      obtain rfl := Option.some.inj hs
      exact ⟨_, _, .createFence i⟩

end Recorder

theorem RecordStep.parts {r r' : Recorder} {closed closed' : List TaskChain}
    {current current' : TaskChain} {c : Call} (h : r.raw.Parts closed current)
    (hs : RecordStep r closed current c closed' current' r') : r'.raw.Parts closed' current' := by
  cases hs with
  | drop | linkChains | createFence => exact ⟨h.tasks, h.group⟩
  | _ => exact ⟨rfl, rfl⟩

end MVSync
