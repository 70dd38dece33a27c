import Mathlib.Data.List.Perm.Basic
import MVSync.CommandBuffer.Bake

/-!
# Copies of a command buffer

`CommandBuffer` of `command_buffers/buffer.rs`.  The copies of one buffer share a
`RawCommandBuffer` and the number of copies, which the last copy releases.  Every
`BufferedCommand` has a copy as its parent, and a call that chains a command clones the
parent and drops the old one.

A copy is named by its position in the list of those that are alive, and it is the
parent of a `BufferedCommand` if it has a response.  The calls that take a value drop it
when they panic.  A copy cannot be sent to another thread, so the calls come one after
the other.
-/

namespace MVSync

/-! ## Values -/

/-- A `CommandBuffer`, with the response of the `BufferedCommand` that it is the parent
of. -/
structure CommandBuffer where
  baked : Option (List Task)
  response : Option TaskId
deriving DecidableEq, Repr

/-- What `ptr` and `refs` point to. -/
structure Block where
  raw : RawCommandBuffer
  refs : Nat
deriving DecidableEq, Repr

/-- The copies of one command buffer. -/
structure Copies where
  /-- What `ptr` and `refs` point to, until it is released. -/
  block : Option Block
  /-- The copies that are alive. -/
  live : List CommandBuffer
  /-- The numbers of the next command, fence and semaphore. -/
  next : TaskId
  nextFence : FenceId
  nextSemaphore : SemId
  /-- The tasks that the fences are bound to. -/
  fence : FenceId → Option TaskId
  /-- History: the tasks that `tasks` returned. -/
  taken : Option (List Task)

/-- How a call ends. -/
inductive Exit where
  | returned
  | panicked (message : String)
  /-- What was released is used. -/
  | undefined
deriving DecidableEq, Repr

/-! ## Baking -/

namespace RawCommandBuffer

/-- The loop of `finish` over the fences, and what it leaves when it panics. -/
def fenceLoop (tasks : List TaskChain) :
    List (Nat × FenceId) → (FenceId → Option TaskId) → Option String × (FenceId → Option TaskId)
  | [], bound => (none, bound)
  | (i, fence) :: fences, bound =>
      match tasks[i]? with
      | some chain => fenceLoop tasks fences (chain.endingFence fence bound)
      | none => (some ("Fence index '" ++ toString i ++ "' out of bounds"), bound)

/-- The loop of `finish` over the links, and what it leaves when it panics. -/
def linkLoop :
    List (Nat × Nat) → List TaskChain → SemId → Option String × List TaskChain × SemId
  | [], tasks, next => (none, tasks, next)
  | (e, s) :: links, tasks, next =>
      if e < tasks.length ∧ s < tasks.length then
        let tasks := tasks.modify e (·.endingSemaphore next)
        linkLoop links (tasks.modify s (·.startingSemaphore next)) (next + 1)
      else
        (some ("Semaphore index '" ++ toString s ++ "' or '" ++ toString e ++ "' out of bounds"),
          tasks, next)

end RawCommandBuffer

namespace Copies

/-- The copy when `CommandBuffer::new` returns. -/
def new (home : Bool) : Copies where
  block := some ⟨.new home, 1⟩
  live := [⟨none, none⟩]
  next := 0
  nextFence := 0
  nextSemaphore := 0
  fence _ := none
  taken := none

/-- `RawCommandBuffer::finish`, and the assignment of `baked`.  A `Drain` that is dropped
by a panic empties its vector. -/
def bake (s : Copies) (i : Nat) (c : CommandBuffer) (b : Block) : Copies × Exit :=
  let raw := { b.raw with fences := [] }
  match RawCommandBuffer.fenceLoop b.raw.tasks b.raw.fences s.fence with
  | (some message, fence) =>
      ({ s with block := some { b with raw := raw }, fence := fence }, .panicked message)
  | (none, fence) =>
      let raw := { raw with chainLinks := [] }
      match RawCommandBuffer.linkLoop b.raw.chainLinks b.raw.tasks s.nextSemaphore with
      | (some message, tasks, next) =>
          ({ s with
              block := some { b with raw := { raw with tasks := tasks } }
              fence := fence
              nextSemaphore := next }, .panicked message)
      | (none, tasks, next) =>
          let chained := RawCommandBuffer.chainAll tasks next
          ({ s with
              block := some { b with raw := { raw with tasks := [] } }
              live := s.live.set i { c with baked := some chained.1 }
              fence := fence
              nextSemaphore := chained.2 }, .returned)

/-! ## Calls -/

/-- `Drop for CommandBuffer`. -/
def drop (s : Copies) (i : Nat) : Copies × Exit :=
  match s.block with
  | none => (s, .undefined)
  | some b =>
      let refs := b.refs - 1
      ({ s with
          block := if refs = 0 then none else some { b with refs := refs }
          live := s.live.eraseIdx i }, .returned)

/-- A panic drops the copy that the call has. -/
def unwind (s : Copies) (i : Nat) (message : String) : Copies × Exit :=
  match s.drop i with
  | (s, .returned) => (s, .panicked message)
  | r => r

/-- `Clone for CommandBuffer`. -/
def clone (s : Copies) (c : CommandBuffer) : Copies × Exit :=
  if c.baked.isSome then (s, .panicked "You cannot clone a baked command buffer!")
  else
    match s.block with
    | none => (s, .undefined)
    | some b =>
        ({ s with
            block := some { b with refs := b.refs + 1 }
            live := s.live ++ [⟨none, none⟩] }, .returned)

/-- The message of a vector that is indexed out of bounds. -/
def outOfBounds (b : Block) : String :=
  "index out of bounds: the len is " ++ toString b.raw.tasks.length ++ " but the index is " ++
    toString b.raw.group

/-- A function of `RawCommandBuffer` that records a task, and `BufferedCommand::new` on
the last copy. -/
def record (s : Copies) (add : RawCommandBuffer → TaskId → Option RawCommandBuffer) :
    Copies × Exit :=
  match s.block with
  | none => (s, .undefined)
  | some b =>
      match add b.raw s.next with
      | none => s.unwind (s.live.length - 1) (outOfBounds b)
      | some raw =>
          ({ s with
              block := some { b with raw := raw }
              live := s.live.set (s.live.length - 1) ⟨none, some s.next⟩
              next := s.next + 1 }, .returned)

/-- `CommandBufferEntry for CommandBuffer`. -/
def addRoot (s : Copies) (c : CommandBuffer)
    (add : RawCommandBuffer → TaskId → Option RawCommandBuffer) : Copies × Exit :=
  if c.baked.isSome then (s, .panicked "You cannot modify a baked command buffer!")
  else
    match s.clone c with
    | (s, .returned) => s.record add
    | r => r

/-- `Command for BufferedCommand`. -/
def addChained (s : Copies) (i : Nat) (c : CommandBuffer)
    (add : RawCommandBuffer → TaskId → Option RawCommandBuffer) : Copies × Exit :=
  match s.clone c with
  | (s, .returned) =>
      match s.record add with
      | (s, .returned) => s.drop i
      | (s, .panicked message) => s.unwind i message
      | r => r
  | (s, .panicked message) => s.unwind i message
  | r => r

/-- `Command::response`. -/
def response (s : Copies) (i : Nat) : Copies × Exit :=
  match s.block with
  | none => (s, .undefined)
  | some b =>
      match b.raw.getControllers with
      | none => s.unwind i (outOfBounds b)
      | some (_, raw) => { s with block := some { b with raw := raw } }.drop i

/-- `CommandBuffer::link_chains`. -/
def linkChains (s : Copies) (c : CommandBuffer) (dependency successor : Nat) : Copies × Exit :=
  if c.baked.isSome then (s, .panicked "You cannot modify a baked command buffer!")
  else
    match s.block with
    | none => (s, .undefined)
    | some b =>
        let links := b.raw.chainLinks ++ [(dependency, successor)]
        ({ s with block := some { b with raw := { b.raw with chainLinks := links } } }, .returned)

/-- `CommandBuffer::create_fence`. -/
def createFence (s : Copies) (c : CommandBuffer) (taskChain : Nat) : Copies × Exit :=
  if c.baked.isSome then (s, .panicked "You cannot modify a baked command buffer!")
  else
    match s.block with
    | none => (s, .undefined)
    | some b =>
        let fences := b.raw.fences ++ [(taskChain, s.nextFence)]
        ({ s with
            block := some { b with raw := { b.raw with fences := fences } }
            nextFence := s.nextFence + 1 }, .returned)

/-- The message of the reference check of `finish`. -/
def livingReferences : String :=
  "You cannot bake a command buffer that has other living references!"

/-- `CommandBuffer::finish`. -/
def finish (s : Copies) (i : Nat) (c : CommandBuffer) : Copies × Exit :=
  if c.baked.isSome then (s, .panicked "Command buffer has already been baked!")
  else
    match s.block with
    | none => (s, .undefined)
    | some b => if b.refs ≠ 1 then (s, .panicked livingReferences) else s.bake i c b

/-- `CommandBuffer::tasks`, which a submission calls. -/
def tasks (s : Copies) (i : Nat) (c : CommandBuffer) : Copies × Exit :=
  match c.baked with
  | none => s.unwind i "Command buffer has now been baked!"
  | some ts =>
      { s with live := s.live.set i { c with baked := none }, taken := some ts }.drop i

end Copies

/-- A call on a copy.  The calls that take `&self` can be made on the parent of a
`BufferedCommand` too. -/
inductive CopyCall where
  | clone (i : Nat)
  /-- The copy is dropped, with the `BufferedCommand` that it is in. -/
  | drop (i : Nat)
  | addSyncCommand (i : Nat)
  | addCommand (i : Nat)
  /-- `add_sync_command` on a `BufferedCommand`. -/
  | chainSync (i : Nat)
  /-- `add_command` on a `BufferedCommand`. -/
  | chain (i : Nat)
  | response (i : Nat)
  | linkChains (i dependency successor : Nat)
  | createFence (i taskChain : Nat)
  | finish (i : Nat)
  /-- The submission of the command buffer. -/
  | submit (i : Nat)
deriving DecidableEq, Repr

namespace Copies

/-- One call, if there is the value to call it on. -/
def step (s : Copies) : CopyCall → Option (Copies × Exit)
  | .clone i => s.live[i]?.map s.clone
  | .drop i => s.live[i]?.map fun _ => s.drop i
  | .addSyncCommand i => s.live[i]?.map fun c => s.addRoot c RawCommandBuffer.addSyncTask
  | .addCommand i => s.live[i]?.map fun c => s.addRoot c RawCommandBuffer.addTask
  | .chainSync i =>
      s.live[i]?.bind fun c => c.response.map fun p => s.addChained i c (·.addSyncChainedTask · p)
  | .chain i =>
      s.live[i]?.bind fun c => c.response.map fun p => s.addChained i c (·.addChainedTask · p)
  | .response i => s.live[i]?.bind fun c => c.response.map fun _ => s.response i
  | .linkChains i d k => s.live[i]?.map fun c => s.linkChains c d k
  | .createFence i k => s.live[i]?.map fun c => s.createFence c k
  | .finish i => s.live[i]?.map fun c => s.finish i c
  | .submit i =>
      s.live[i]?.bind fun c => if c.response.isNone then some (s.tasks i c) else none

/-- What a call can be. -/
inductive Step (s : Copies) (r : Copies × Exit) : CopyCall → Prop where
  | clone {i : Nat} {c : CommandBuffer} (hi : s.live[i]? = some c) (he : s.clone c = r) :
      Step s r (.clone i)
  | drop {i : Nat} {c : CommandBuffer} (hi : s.live[i]? = some c) (he : s.drop i = r) :
      Step s r (.drop i)
  | addSyncCommand {i : Nat} {c : CommandBuffer} (hi : s.live[i]? = some c)
      (he : s.addRoot c RawCommandBuffer.addSyncTask = r) : Step s r (.addSyncCommand i)
  | addCommand {i : Nat} {c : CommandBuffer} (hi : s.live[i]? = some c)
      (he : s.addRoot c RawCommandBuffer.addTask = r) : Step s r (.addCommand i)
  | chainSync {i : Nat} {c : CommandBuffer} {p : TaskId} (hi : s.live[i]? = some c)
      (hp : c.response = some p) (he : s.addChained i c (·.addSyncChainedTask · p) = r) :
      Step s r (.chainSync i)
  | chain {i : Nat} {c : CommandBuffer} {p : TaskId} (hi : s.live[i]? = some c)
      (hp : c.response = some p) (he : s.addChained i c (·.addChainedTask · p) = r) :
      Step s r (.chain i)
  | response {i : Nat} {c : CommandBuffer} {p : TaskId} (hi : s.live[i]? = some c)
      (hp : c.response = some p) (he : s.response i = r) : Step s r (.response i)
  | linkChains {i d k : Nat} {c : CommandBuffer} (hi : s.live[i]? = some c)
      (he : s.linkChains c d k = r) : Step s r (.linkChains i d k)
  | createFence {i k : Nat} {c : CommandBuffer} (hi : s.live[i]? = some c)
      (he : s.createFence c k = r) : Step s r (.createFence i k)
  | finish {i : Nat} {c : CommandBuffer} (hi : s.live[i]? = some c) (he : s.finish i c = r) :
      Step s r (.finish i)
  | submit {i : Nat} {c : CommandBuffer} (hi : s.live[i]? = some c) (hp : c.response = none)
      (he : s.tasks i c = r) : Step s r (.submit i)

theorem step_cases {s : Copies} {call : CopyCall} {r : Copies × Exit}
    (h : s.step call = some r) : Step s r call := by
  cases call with
  | clone i =>
      obtain ⟨c, hi, he⟩ := Option.map_eq_some_iff.mp h
      exact .clone hi he
  | drop i =>
      obtain ⟨c, hi, he⟩ := Option.map_eq_some_iff.mp h
      exact .drop hi he
  | addSyncCommand i =>
      obtain ⟨c, hi, he⟩ := Option.map_eq_some_iff.mp h
      exact .addSyncCommand hi he
  | addCommand i =>
      obtain ⟨c, hi, he⟩ := Option.map_eq_some_iff.mp h
      exact .addCommand hi he
  | chainSync i =>
      obtain ⟨c, hi, h⟩ := Option.bind_eq_some_iff.mp h
      obtain ⟨p, hp, he⟩ := Option.map_eq_some_iff.mp h
      exact .chainSync hi hp he
  | chain i =>
      obtain ⟨c, hi, h⟩ := Option.bind_eq_some_iff.mp h
      obtain ⟨p, hp, he⟩ := Option.map_eq_some_iff.mp h
      exact .chain hi hp he
  | response i =>
      obtain ⟨c, hi, h⟩ := Option.bind_eq_some_iff.mp h
      obtain ⟨p, hp, he⟩ := Option.map_eq_some_iff.mp h
      exact .response hi hp he
  | linkChains i d k =>
      obtain ⟨c, hi, he⟩ := Option.map_eq_some_iff.mp h
      exact .linkChains hi he
  | createFence i k =>
      obtain ⟨c, hi, he⟩ := Option.map_eq_some_iff.mp h
      exact .createFence hi he
  | finish i =>
      obtain ⟨c, hi, he⟩ := Option.map_eq_some_iff.mp h
      exact .finish hi he
  | submit i =>
      obtain ⟨c, hi, h⟩ := Option.bind_eq_some_iff.mp h
      split at h
      case isTrue hp => exact .submit hi (Option.isNone_iff_eq_none.mp hp) (Option.some.inj h)
      case isFalse => cases h

/-- The states that calls lead to, those that panic included. -/
inductive Leads (s₀ : Copies) : Copies → Prop where
  | init : Leads s₀ s₀
  | step {s s' : Copies} {e : Exit} (call : CopyCall) (h : Leads s₀ s)
      (hs : s.step call = some (s', e)) : Leads s₀ s'

end Copies

/-! ## Counting -/

namespace Copies

variable {s s' : Copies} {c : CommandBuffer} {b : Block} {i : Nat} {e : Exit} {call : CopyCall}

/-- The number of copies is the one that they share, and a baked copy is the only one. -/
structure Counted (s : Copies) : Prop where
  refs : s.block.map Block.refs = if s.live = [] then none else some s.live.length
  sole : ∀ c ∈ s.live, c.baked.isSome = true → s.live.length = 1
  taken : s.live ≠ [] → s.taken = none

/-- A call that uses nothing that was released, and keeps the count. -/
def Safe (r : Copies × Exit) : Prop := r.2 ≠ .undefined ∧ Counted r.1

theorem Counted.new (home : Bool) : Counted (new home) := by
  refine ⟨rfl, fun c hc hb => ?_, fun _ => rfl⟩
  rw [List.mem_singleton.mp hc] at hb
  cases hb

/-- What a copy points to is not released. -/
theorem Counted.exists_block (h : Counted s) (hl : s.live ≠ []) :
    ∃ b, s.block = some b ∧ b.refs = s.live.length := by
  have hrefs := h.refs
  rw [if_neg hl] at hrefs
  exact Option.map_eq_some_iff.mp hrefs

theorem Counted.block_eq_none (h : Counted s) : s.block = none ↔ s.live = [] := by
  have hrefs := h.refs
  constructor
  · intro hb
    by_contra hl
    rw [hb, if_neg hl] at hrefs
    cases hrefs
  · intro hl
    rw [if_pos hl] at hrefs
    exact Option.map_eq_none_iff.mp hrefs

/-- What the copies point to changes, and the copies do not. -/
theorem Counted.congr (h : Counted s) (hb : s'.block.map Block.refs = s.block.map Block.refs)
    (hl : s'.live = s.live) (ht : s'.taken = s.taken) : Counted s' := by
  refine ⟨?_, ?_, ?_⟩
  · rw [hb, hl]
    exact h.refs
  · rw [hl]
    exact h.sole
  · rw [hl, ht]
    exact h.taken

theorem Counted.drop (h : Counted s) (hi : i < s.live.length) :
    ∃ s', s.drop i = (s', .returned) ∧ Counted s' ∧ s'.live = s.live.eraseIdx i := by
  have hne : s.live ≠ [] := List.ne_nil_of_length_pos (Nat.zero_lt_of_lt hi)
  obtain ⟨b, hb, hrefs⟩ := h.exists_block hne
  have hlen : (s.live.eraseIdx i).length = s.live.length - 1 := List.length_eraseIdx_of_lt hi
  simp only [Copies.drop, hb]
  refine ⟨_, rfl, ⟨?_, fun c hc hbaked => ?_, fun _ => h.taken hne⟩, rfl⟩
  · by_cases hone : s.live.length = 1
    · have hnil : s.live.eraseIdx i = [] := List.eq_nil_of_length_eq_zero (by omega)
      simp [hrefs, hone, hnil]
    · have hsome : s.live.eraseIdx i ≠ [] := List.ne_nil_of_length_pos (by omega)
      have hpos : s.live.length - 1 ≠ 0 := by omega
      simp [hrefs, hpos, hsome, hlen]
  · have hsole := h.sole c (List.mem_of_mem_eraseIdx hc) hbaked
    have hpos : 0 < (s.live.eraseIdx i).length := List.length_pos_of_mem hc
    show (s.live.eraseIdx i).length = 1
    omega

theorem Counted.unwind (h : Counted s) (hi : i < s.live.length) (message : String) :
    ∃ s', s.unwind i message = (s', .panicked message) ∧ Counted s' ∧
      s'.live = s.live.eraseIdx i := by
  obtain ⟨s', hdrop, hc, hl⟩ := h.drop hi
  exact ⟨s', by rw [Copies.unwind, hdrop], hc, hl⟩

/-- A copy that is not baked is cloned. -/
theorem Counted.clone (h : Counted s) (hc : c ∈ s.live) :
    (∃ message, s.clone c = (s, .panicked message) ∧ c.baked.isSome = true) ∨
      ∃ s', s.clone c = (s', .returned) ∧ Counted s' ∧ s'.live = s.live ++ [⟨none, none⟩] := by
  have hne : s.live ≠ [] := List.ne_nil_of_mem hc
  obtain ⟨b, hb, hrefs⟩ := h.exists_block hne
  cases hbaked : c.baked.isSome with
  | true => exact .inl ⟨_, if_pos hbaked, rfl⟩
  | false =>
      refine .inr ?_
      simp only [Copies.clone, hbaked, hb, Bool.false_eq_true, if_false]
      refine ⟨_, rfl, ⟨by simp [hrefs], fun c' hc' hb' => ?_, fun _ => h.taken hne⟩, rfl⟩
      -- the copy is not baked, so none is
      rcases List.mem_append.mp hc' with hc' | hc'
      · obtain ⟨y, hy⟩ := List.length_eq_one_iff.mp (h.sole c' hc' hb')
        rw [hy, List.mem_singleton] at hc hc'
        simp [hc, ← hc', hb'] at hbaked
      · rw [List.mem_singleton.mp hc'] at hb'
        cases hb'

/-- A command is recorded with the last copy, or that copy is dropped. -/
theorem Counted.record (h : Counted s) (hne : s.live ≠ [])
    (add : RawCommandBuffer → TaskId → Option RawCommandBuffer) :
    ∃ s' e, s.record add = (s', e) ∧ Counted s' ∧
      (e = .returned ∧ s'.live.length = s.live.length ∨
        ∃ message, e = .panicked message ∧ s'.live.length = s.live.length - 1) := by
  obtain ⟨b, hb, hrefs⟩ := h.exists_block hne
  have hlast : s.live.length - 1 < s.live.length :=
    Nat.sub_one_lt (Nat.ne_of_gt (List.length_pos_of_ne_nil hne))
  simp only [Copies.record, hb]
  split
  case h_1 =>
    obtain ⟨s', hs', hc, hl⟩ := h.unwind hlast (outOfBounds b)
    exact ⟨s', _, hs', hc, .inr ⟨_, rfl, by rw [hl, List.length_eraseIdx_of_lt hlast]⟩⟩
  case h_2 raw _ =>
    refine ⟨_, _, rfl, ⟨?_, fun c hc hbaked => ?_, fun _ => h.taken hne⟩,
      .inl ⟨rfl, List.length_set⟩⟩
    · simp [hrefs, hne]
    · show (s.live.set _ _).length = 1
      rw [List.length_set]
      rcases List.mem_or_eq_of_mem_set hc with hc | rfl
      · exact h.sole c hc hbaked
      · cases hbaked

theorem Counted.addRoot (h : Counted s) (hc : c ∈ s.live)
    (add : RawCommandBuffer → TaskId → Option RawCommandBuffer) : Safe (s.addRoot c add) := by
  unfold Copies.addRoot
  split
  · exact ⟨nofun, h⟩
  · rcases h.clone hc with ⟨message, he, -⟩ | ⟨s₁, he, hcount, hl⟩
    · rw [he]
      exact ⟨nofun, h⟩
    · rw [he]
      obtain ⟨s₂, e, he', hk, ⟨rfl, -⟩ | ⟨message, rfl, -⟩⟩ := hcount.record (by simp [hl]) add
      all_goals
        simp only [he']
        exact ⟨nofun, hk⟩

theorem Counted.addChained (h : Counted s) (hi : s.live[i]? = some c)
    (add : RawCommandBuffer → TaskId → Option RawCommandBuffer) : Safe (s.addChained i c add) := by
  have hlt : i < s.live.length := (List.getElem?_eq_some_iff.mp hi).1
  unfold Copies.addChained
  rcases h.clone (List.mem_of_getElem? hi) with ⟨message, he, -⟩ | ⟨s₁, he, hcount, hl⟩
  · obtain ⟨s', hs', hk, -⟩ := h.unwind hlt message
    simp only [he, hs']
    exact ⟨nofun, hk⟩
  · have hlen : s₁.live.length = s.live.length + 1 := by simp [hl]
    rw [he]
    obtain ⟨s₂, e, he', hk, ⟨rfl, hlen'⟩ | ⟨message, rfl, hlen'⟩⟩ :=
      hcount.record (by simp [hl]) add
    · obtain ⟨s₃, hs₃, hk₃, -⟩ := hk.drop (i := i) (by omega)
      simp only [he', hs₃]
      exact ⟨nofun, hk₃⟩
    · obtain ⟨s₃, hs₃, hk₃, -⟩ := hk.unwind (i := i) (by omega) message
      simp only [he', hs₃]
      exact ⟨nofun, hk₃⟩

theorem Counted.response (h : Counted s) (hi : i < s.live.length) : Safe (s.response i) := by
  have hne : s.live ≠ [] := List.ne_nil_of_length_pos (Nat.zero_lt_of_lt hi)
  obtain ⟨b, hb, -⟩ := h.exists_block hne
  simp only [Copies.response, hb]
  split
  · obtain ⟨s', hs', hk, -⟩ := h.unwind hi (outOfBounds b)
    exact hs' ▸ ⟨nofun, hk⟩
  case h_2 raw _ =>
    have hraw : Counted { s with block := some { b with raw := raw } } :=
      h.congr (by simp [hb]) rfl rfl
    obtain ⟨s', hs', hk, -⟩ := hraw.drop hi
    exact hs' ▸ ⟨nofun, hk⟩

theorem Counted.linkChains (h : Counted s) (hc : c ∈ s.live) (d k : Nat) :
    Safe (s.linkChains c d k) := by
  obtain ⟨b, hb, -⟩ := h.exists_block (List.ne_nil_of_mem hc)
  simp only [Copies.linkChains, hb]
  split
  · exact ⟨nofun, h⟩
  · exact ⟨nofun, h.congr (by simp [hb]) rfl rfl⟩

theorem Counted.createFence (h : Counted s) (hc : c ∈ s.live) (k : Nat) :
    Safe (s.createFence c k) := by
  obtain ⟨b, hb, -⟩ := h.exists_block (List.ne_nil_of_mem hc)
  simp only [Copies.createFence, hb]
  split
  · exact ⟨nofun, h⟩
  · exact ⟨nofun, h.congr (by simp [hb]) rfl rfl⟩

theorem Counted.bake (h : Counted s) (hb : s.block = some b) (hone : s.live.length = 1) :
    Safe (s.bake i c b) := by
  have hne : s.live ≠ [] := List.ne_nil_of_length_pos (by omega)
  have hrefs := h.refs
  rw [hb, if_neg hne] at hrefs
  unfold Copies.bake
  split
  · exact ⟨nofun, h.congr (by simp [hb]) rfl rfl⟩
  · split
    · exact ⟨nofun, h.congr (by simp [hb]) rfl rfl⟩
    · refine ⟨nofun, ?_, fun _ _ _ => by simp [hone], fun _ => h.taken hne⟩
      simpa [hne] using hrefs

theorem Counted.finish (h : Counted s) (hc : c ∈ s.live) : Safe (s.finish i c) := by
  obtain ⟨b, hb, hrefs⟩ := h.exists_block (List.ne_nil_of_mem hc)
  simp only [Copies.finish, hb]
  split
  · exact ⟨nofun, h⟩
  · split
    case isTrue => exact ⟨nofun, h⟩
    case isFalse hone => exact h.bake hb (hrefs ▸ not_not.mp hone)

theorem Counted.tasks (h : Counted s) (hi : s.live[i]? = some c) : Safe (s.tasks i c) := by
  have hlt : i < s.live.length := (List.getElem?_eq_some_iff.mp hi).1
  have hmem : c ∈ s.live := List.mem_of_getElem? hi
  unfold Copies.tasks
  split
  · obtain ⟨s', hs', hk, -⟩ := h.unwind hlt "Command buffer has now been baked!"
    exact hs' ▸ ⟨nofun, hk⟩
  case h_2 ts hts =>
    -- a baked copy is the last one
    have hone := h.sole c hmem (by simp [hts])
    obtain ⟨b, hb, hrefs⟩ := h.exists_block (List.ne_nil_of_mem hmem)
    obtain ⟨y, hy⟩ := List.length_eq_one_iff.mp hone
    obtain rfl : i = 0 := by omega
    refine ⟨by simp [Copies.drop, hb], ?_⟩
    constructor <;> simp [Copies.drop, hb, hrefs, hy]

/-- Every call keeps the count. -/
theorem Counted.step (h : Counted s) (hs : s.step call = some (s', e)) : Safe (s', e) := by
  cases step_cases hs with
  | clone hi he =>
      rw [← he]
      rcases h.clone (List.mem_of_getElem? hi) with ⟨message, he, -⟩ | ⟨s₁, he, hk, -⟩
      · exact he ▸ ⟨nofun, h⟩
      · exact he ▸ ⟨nofun, hk⟩
  | drop hi he =>
      obtain ⟨s₁, hs₁, hk, -⟩ := h.drop (List.getElem?_eq_some_iff.mp hi).1
      exact he ▸ hs₁ ▸ ⟨nofun, hk⟩
  | addSyncCommand hi he | addCommand hi he => exact he ▸ h.addRoot (List.mem_of_getElem? hi) _
  | chainSync hi _ he | chain hi _ he => exact he ▸ h.addChained hi _
  | response hi _ he => exact he ▸ h.response (List.getElem?_eq_some_iff.mp hi).1
  | linkChains hi he => exact he ▸ h.linkChains (List.mem_of_getElem? hi) _ _
  | createFence hi he => exact he ▸ h.createFence (List.mem_of_getElem? hi) _
  | finish hi he => exact he ▸ h.finish (List.mem_of_getElem? hi)
  | submit hi _ he => exact he ▸ h.tasks hi

theorem Leads.counted {s₀ : Copies} (h : Leads s₀ s) (h₀ : Counted s₀) : Counted s := by
  induction h with
  | init => exact h₀
  | step call _ hs ih => exact (ih.step hs).2

/-! ## The reference check -/

theorem fenceLoop_message {tasks : List TaskChain} {fences : List (Nat × FenceId)}
    {bound bound' : FenceId → Option TaskId} {message : String}
    (h : RawCommandBuffer.fenceLoop tasks fences bound = (some message, bound')) :
    message ≠ livingReferences := by
  induction fences generalizing bound with
  | nil => cases h
  | cons f fences ih =>
      simp only [RawCommandBuffer.fenceLoop] at h
      split at h
      · exact ih h
      · obtain ⟨he, -⟩ := Prod.mk.inj h
        obtain rfl := Option.some.inj he
        simp [livingReferences, String.ext_iff]

theorem linkLoop_message {links : List (Nat × Nat)} {tasks tasks' : List TaskChain}
    {next next' : SemId} {message : String}
    (h : RawCommandBuffer.linkLoop links tasks next = (some message, tasks', next')) :
    message ≠ livingReferences := by
  induction links generalizing tasks next with
  | nil => cases h
  | cons l links ih =>
      simp only [RawCommandBuffer.linkLoop] at h
      split at h
      · exact ih h
      · obtain ⟨he, -⟩ := Prod.mk.inj h
        obtain rfl := Option.some.inj he
        simp [livingReferences, String.ext_iff]

theorem bake_message (s : Copies) (i : Nat) (c : CommandBuffer) (b : Block) :
    (s.bake i c b).2 ≠ .panicked livingReferences := by
  unfold bake
  split
  case h_1 he => simpa using fenceLoop_message he
  case h_2 =>
    split
    case h_1 he => simpa using linkLoop_message he
    case h_2 => nofun

/-- A copy that is not baked is stopped by the check, or goes on, and then it is the only
one. -/
theorem Counted.finish_eq (h : Counted s) (hb : s.block = some b) (hc : c.baked = none)
    (hi : s.live[i]? = some c) :
    s.finish i c = if s.live.length = 1 then s.bake i c b else (s, .panicked livingReferences) := by
  obtain ⟨b', hb', hrefs⟩ := h.exists_block (List.ne_nil_of_mem (List.mem_of_getElem? hi))
  obtain rfl := Option.some.inj (hb.symm.trans hb')
  simp [Copies.finish, hc, hb, hrefs]

/-- The check stops a copy exactly if there is another one. -/
theorem Counted.check (h : Counted s) (hi : s.live[i]? = some c) :
    (∃ s', s.finish i c = (s', .panicked livingReferences)) ↔ s.live.length ≠ 1 := by
  have hmem : c ∈ s.live := List.mem_of_getElem? hi
  obtain ⟨b, hb, -⟩ := h.exists_block (List.ne_nil_of_mem hmem)
  cases hc : c.baked with
  | none =>
      rw [h.finish_eq hb hc hi]
      split
      case isTrue hone =>
        refine iff_of_false (fun hex => ?_) (not_not.mpr hone)
        obtain ⟨s', hs'⟩ := hex
        exact bake_message s i c b (congrArg Prod.snd hs')
      case isFalse hone => exact iff_of_true ⟨s, rfl⟩ hone
  | some ts =>
      have hone := h.sole c hmem (by simp [hc])
      refine iff_of_false (fun hex => ?_) (not_not.mpr hone)
      obtain ⟨s', hs'⟩ := hex
      simp [Copies.finish, hc, livingReferences] at hs'

/-! ## A baked buffer -/

/-- The buffer is baked: one copy has the tasks, and nothing is left to record. -/
structure Sealed (s : Copies) (ts : List Task) : Prop where
  live : ∃ p, s.live = [⟨some ts, p⟩]
  block : ∃ raw : RawCommandBuffer, s.block = some ⟨raw, 1⟩ ∧ raw.tasks = []

/-- Between two states nothing was recorded, and no task, link or fence was changed: the
buffer is what it was, or it was released, and its tasks were submitted as they were. -/
structure Unchanged (s s' : Copies) (ts : List Task) : Prop where
  next : s'.next = s.next
  nextFence : s'.nextFence = s.nextFence
  nextSemaphore : s'.nextSemaphore = s.nextSemaphore
  fence : s'.fence = s.fence
  kept : s' = s ∨
    s'.block = none ∧ s'.live = [] ∧ (s'.taken = s.taken ∨ s'.taken = some ts)

theorem Unchanged.refl (s : Copies) (ts : List Task) : Unchanged s s ts :=
  ⟨rfl, rfl, rfl, rfl, .inl rfl⟩

/-- What a `finish` that returns does to the copies and to what they point to. -/
theorem bake_returned (h : s.bake i c b = (s', .returned)) :
    (∃ ts, s'.live = s.live.set i { c with baked := some ts }) ∧
      ∃ raw : RawCommandBuffer, s'.block = some ⟨raw, b.refs⟩ ∧ raw.tasks = [] := by
  unfold bake at h
  split at h
  · simp at h
  · split at h
    · simp at h
    · obtain ⟨rfl, -⟩ := Prod.mk.inj h
      exact ⟨⟨_, rfl⟩, _, rfl, rfl⟩

/-- Only one copy is there when a `finish` returns. -/
theorem Counted.sealed (h : Counted s) (hs : s.step (.finish i) = some (s', .returned)) :
    ∃ ts, Sealed s' ts := by
  obtain ⟨c, hi, he⟩ := Option.map_eq_some_iff.mp hs
  obtain ⟨b, hb, hrefs⟩ := h.exists_block (List.ne_nil_of_mem (List.mem_of_getElem? hi))
  cases hc : c.baked with
  | some ts => simp [Copies.finish, hc] at he
  | none =>
      rw [h.finish_eq hb hc hi] at he
      split at he
      case isFalse => simp at he
      case isTrue hone =>
        obtain ⟨y, hy⟩ := List.length_eq_one_iff.mp hone
        obtain rfl : i = 0 := by
          have hlt := (List.getElem?_eq_some_iff.mp hi).1
          omega
        obtain ⟨⟨ts, hl⟩, raw, hblock, hraw⟩ := bake_returned he
        rw [hy] at hl
        rw [hrefs, hone] at hblock
        exact ⟨ts, ⟨c.response, hl⟩, raw, hblock, hraw⟩

/-- The only copy is dropped. -/
theorem Sealed.drop {ts : List Task} (h : Sealed s ts) :
    s.drop 0 = ({ s with block := none, live := [] }, .returned) := by
  obtain ⟨⟨p, hl⟩, raw, hb, -⟩ := h
  simp [Copies.drop, hb, hl]

theorem Sealed.unwind {ts : List Task} (h : Sealed s ts) (message : String) :
    s.unwind 0 message = ({ s with block := none, live := [] }, .panicked message) := by
  rw [Copies.unwind, h.drop]

theorem Sealed.step {ts : List Task} (h : Sealed s ts) (hs : s.step call = some (s', e)) :
    Unchanged s s' ts := by
  obtain ⟨p, hl⟩ := h.live
  have hget : ∀ {i c}, s.live[i]? = some c → i = 0 ∧ c = ⟨some ts, p⟩ := by
    intro i c hi
    rw [hl] at hi
    obtain ⟨hlt, rfl⟩ := List.getElem?_eq_some_iff.mp hi
    obtain rfl : i = 0 := by simpa using hlt
    exact ⟨rfl, rfl⟩
  have same : ∀ {message : String}, (s, .panicked message) = (s', e) → Unchanged s s' ts := by
    rintro message he
    obtain ⟨rfl, -⟩ := Prod.mk.inj he
    exact .refl s ts
  have released : ∀ {e' : Exit}, ({ s with block := none, live := [] }, e') = (s', e) →
      Unchanged s s' ts := by
    rintro e' he
    obtain ⟨rfl, -⟩ := Prod.mk.inj he
    exact ⟨rfl, rfl, rfl, rfl, .inr ⟨rfl, rfl, .inl rfl⟩⟩
  cases step_cases hs with
  | clone hi he | addSyncCommand hi he | addCommand hi he | linkChains hi he | createFence hi he
  | finish hi he =>
      obtain ⟨rfl, rfl⟩ := hget hi
      exact same he
  | drop hi he =>
      obtain ⟨rfl, rfl⟩ := hget hi
      exact released (h.drop.symm.trans he)
  | chainSync hi _ he | chain hi _ he =>
      obtain ⟨rfl, rfl⟩ := hget hi
      exact released ((h.unwind _).symm.trans he)
  | response hi _ he =>
      obtain ⟨rfl, rfl⟩ := hget hi
      obtain ⟨raw, hb, hraw⟩ := h.block
      simp only [Copies.response, hb, RawCommandBuffer.getControllers, hraw, List.getElem?_nil,
        Option.map_none, h.unwind] at he
      exact released he
  | submit hi _ he =>
      obtain ⟨rfl, rfl⟩ := hget hi
      obtain ⟨raw, hb, -⟩ := h.block
      simp only [Copies.tasks, Copies.drop, hb, hl] at he
      obtain ⟨rfl, -⟩ := Prod.mk.inj he
      exact ⟨rfl, rfl, rfl, rfl, .inr ⟨rfl, rfl, .inr rfl⟩⟩

/-- There is nothing to call after the last copy is dropped. -/
theorem step_of_nil (hl : s.live = []) : s.step call = none := by
  cases call <;> simp [step, hl]

theorem Sealed.leads {ts : List Task} (h : Sealed s ts) (hs : Leads s s') : Unchanged s s' ts := by
  induction hs with
  | init => exact .refl s ts
  | step call _ hs ih =>
      rcases ih.kept with rfl | ⟨-, hl, -⟩
      · exact h.step hs
      · rw [step_of_nil hl] at hs
        cases hs

/-! ## Every state -/

/-- What holds of the copies of a command buffer in every state. -/
structure Sound (s : Copies) : Prop where
  /-- `*refs` is the number of copies. -/
  refs : ∀ b, s.block = some b → b.refs = s.live.length
  /-- The buffer is released when the last copy is dropped, and not before. -/
  released : s.block = none ↔ s.live = []
  /-- What was released is not used. -/
  defined : ∀ call s' e, s.step call = some (s', e) → e ≠ .undefined
  /-- The check of `finish` stops a copy that is not the only one. -/
  check : ∀ i c, s.live[i]? = some c →
    ((∃ s', s.finish i c = (s', .panicked livingReferences)) ↔ s.live.length ≠ 1)
  /-- It lets the only copy through to the baking. -/
  passes : ∀ i c b, s.live[i]? = some c → s.block = some b → c.baked = none →
    s.live.length = 1 → s.finish i c = s.bake i c b
  /-- After a `finish` that returned the buffer is read-only. -/
  readOnly : ∀ i s₁, s.step (.finish i) = some (s₁, .returned) →
    ∃ ts p, s₁.live = [⟨some ts, p⟩] ∧ s₁.taken = none ∧ ∀ s₂, Leads s₁ s₂ → Unchanged s₁ s₂ ts

/-- The copies of a command buffer are counted, and a baked one is read-only. -/
theorem copies_sound (home : Bool) (s : Copies) (h : Leads (new home) s) : Sound s := by
  have hc : Counted s := h.counted (.new home)
  constructor
  · intro b hb
    have hrefs := hc.refs
    have hne : s.live ≠ [] := fun hl => by simp [hc.block_eq_none.mpr hl] at hb
    rw [hb, if_neg hne] at hrefs
    exact Option.some.inj hrefs
  · exact hc.block_eq_none
  · exact fun call s' e hs => (hc.step hs).1
  · exact fun i c hi => hc.check hi
  · intro i c b hi hb hbaked hone
    rw [hc.finish_eq hb hbaked hi, if_pos hone]
  · intro i s₁ hs
    obtain ⟨ts, hsealed⟩ := hc.sealed hs
    obtain ⟨p, hl⟩ := hsealed.live
    exact ⟨ts, p, hl, (hc.step hs).2.taken (by simp [hl]), fun s₂ h₂ => hsealed.leads h₂⟩

/-- The calls one after the other, without those that there is no value for. -/
def after (s : Copies) : List CopyCall → Copies
  | [] => s
  | call :: calls =>
      match s.step call with
      | none => s.after calls
      | some r => r.1.after calls

theorem Leads.after {s₀ s : Copies} (calls : List CopyCall) (h : Leads s₀ s) :
    Leads s₀ (s.after calls) := by
  induction calls generalizing s with
  | nil => exact h
  | cons call calls ih =>
      unfold Copies.after
      split
      · exact ih h
      case h_2 r hr => exact ih (h.step call hr)

/-- A command is chained and its response is taken, and the second copy is dropped after a
`finish` that panics.  The last copy is baked, and a call on it panics. -/
theorem copies_sound_chained :
    let s := (new true).after [.addSyncCommand 0, .clone 0, .chain 1, .finish 0, .drop 1,
      .response 1, .createFence 0 0, .finish 0, .addCommand 0]
    Sound s ∧ s.live.map (·.baked.isSome) = [true] :=
  ⟨copies_sound true _ (.after _ .init), by decide⟩

/-! ## The recorder -/

theorem unwind_returned (message : String) : s.unwind i message ≠ (s', .returned) := by
  unfold Copies.unwind
  split
  · simp
  case h_2 hne => exact hne s'

/-- The copies record what the recorder does, and its buffered commands are the copies
that have a response. -/
structure Records (s : Copies) (r : Recorder) : Prop where
  raw : s.block.map Block.raw = some r.raw
  next : s.next = r.next
  nextFence : s.nextFence = r.nextFence
  live : (s.live.filterMap CommandBuffer.response).Perm r.live

theorem Records.new (home : Bool) : Records (new home) (.new home) := ⟨rfl, rfl, rfl, .nil⟩

/-- A copy, and the others. -/
theorem perm_eraseIdx {l : List CommandBuffer} (hi : l[i]? = some c) :
    (l.filterMap CommandBuffer.response).Perm
      (c.response.toList ++ (l.eraseIdx i).filterMap CommandBuffer.response) := by
  obtain ⟨hlt, rfl⟩ := List.getElem?_eq_some_iff.mp hi
  have hperm := (List.getElem_cons_eraseIdx_perm hlt).symm.filterMap CommandBuffer.response
  cases hp : l[i].response with
  | none => rwa [List.filterMap_cons_none hp] at hperm
  | some p => rwa [List.filterMap_cons_some hp] at hperm

/-- Two runs of the recorder in sequence. -/
theorem run_append (r : Recorder) (cs ds : List Call) :
    r.run (cs ++ ds) = (r.run cs).bind fun r => r.run ds := by
  induction cs generalizing r with
  | nil => rfl
  | cons c cs ih =>
      simp only [List.cons_append, Recorder.run, Option.bind_assoc]
      exact Option.bind_congr fun r' _ => ih r'

namespace Records

variable {r : Recorder} {p : TaskId} {add : RawCommandBuffer → TaskId → Option RawCommandBuffer}

theorem mem_live (h : Records s r) (hi : s.live[i]? = some c) (hp : c.response = some p) :
    p ∈ r.live :=
  h.live.mem_iff.mp (List.mem_filterMap.mpr ⟨c, List.mem_of_getElem? hi, hp⟩)

theorem clone (h : Records s r) (hs : s.clone c = (s', .returned)) :
    Records s' r ∧ s'.live = s.live ++ [⟨none, none⟩] := by
  unfold Copies.clone at hs
  split at hs
  · simp at hs
  · split at hs
    · simp at hs
    case h_2 b hb =>
      obtain ⟨rfl, -⟩ := Prod.mk.inj hs
      refine ⟨⟨?_, h.next, h.nextFence, ?_⟩, rfl⟩
      · simpa [hb] using h.raw
      · simpa using h.live

theorem record (h : Records s r) {l : List CommandBuffer} (hl : s.live = l ++ [⟨none, none⟩])
    (hs : s.record add = (s', .returned)) : ∃ raw, add r.raw r.next = some raw ∧
      Records s' (r.record raw) ∧ s'.live = l ++ [⟨none, some r.next⟩] := by
  obtain ⟨b, hb, hraw⟩ := Option.map_eq_some_iff.mp h.raw
  simp only [Copies.record, hb, hraw, h.next] at hs
  split at hs
  case h_1 => exact absurd hs (unwind_returned _)
  case h_2 raw hadd =>
    obtain ⟨rfl, -⟩ := Prod.mk.inj hs
    have hset : s.live.set (s.live.length - 1) ⟨none, some r.next⟩ =
        l ++ [⟨none, some r.next⟩] := by
      simp [hl]
    refine ⟨raw, hadd, ⟨rfl, ?_, h.nextFence, ?_⟩, hset⟩
    · simp [Recorder.record]
    · have hlive := h.live
      rw [hl] at hlive
      simp only [hset, List.filterMap_append]
      simpa [Recorder.record] using (List.perm_append_singleton _ _).trans (hlive.cons r.next)

/-- A copy is dropped with its buffered command. -/
theorem drop (h : Records s r) (hi : s.live[i]? = some c) (hs : s.drop i = (s', .returned)) :
    s'.block = none ∨
      (c.response = none ∧ Records s' r) ∨
        ∃ p ∈ r.live, c.response = some p ∧ Records s' { r with live := r.live.erase p } := by
  obtain ⟨b, hb, hraw⟩ := Option.map_eq_some_iff.mp h.raw
  simp only [Copies.drop, hb] at hs
  obtain ⟨rfl, -⟩ := Prod.mk.inj hs
  split
  case isTrue => exact .inl rfl
  case isFalse =>
    have hperm := (perm_eraseIdx hi).symm.trans h.live
    cases hp : c.response with
    | none =>
        rw [hp] at hperm
        exact .inr (.inl ⟨rfl, by simpa using hraw, h.next, h.nextFence, hperm⟩)
    | some p =>
        rw [hp] at hperm
        refine .inr (.inr ⟨p, h.mem_live hi hp, rfl, by simpa using hraw, h.next, h.nextFence, ?_⟩)
        simpa using hperm.erase p

theorem addRoot (h : Records s r) (hs : s.addRoot c add = (s', .returned)) :
    ∃ raw, add r.raw r.next = some raw ∧ Records s' (r.record raw) := by
  unfold Copies.addRoot at hs
  split at hs
  · simp at hs
  · split at hs
    case h_1 s₁ hclone =>
      obtain ⟨h₁, hl⟩ := h.clone hclone
      obtain ⟨raw, hadd, h₂, -⟩ := h₁.record hl hs
      exact ⟨raw, hadd, h₂⟩
    case h_2 hne => exact absurd hs (hne s')

/-- The old parent is dropped after the command is recorded. -/
theorem addChained (h : Records s r) (hi : s.live[i]? = some c) (hp : c.response = some p)
    (hs : s.addChained i c add = (s', .returned)) : s'.block = none ∨
      p ∈ r.live ∧ ∃ raw, add r.raw r.next = some raw ∧
        Records s' (Recorder.record { r with live := r.live.erase p } raw) := by
  unfold Copies.addChained at hs
  split at hs
  case h_1 s₁ hclone =>
    obtain ⟨h₁, hl⟩ := h.clone hclone
    split at hs
    case h_1 s₂ hrecord =>
      obtain ⟨raw, hadd, h₂, hl₂⟩ := h₁.record hl hrecord
      have hlt : i < s.live.length := (List.getElem?_eq_some_iff.mp hi).1
      have hi₂ : s₂.live[i]? = some c := by rw [hl₂, List.getElem?_append_left hlt, hi]
      have hmem := h.mem_live hi hp
      rcases h₂.drop hi₂ hs with hnone | ⟨hno, -⟩ | ⟨q, -, hq, h₃⟩
      · exact .inl hnone
      · simp [hp] at hno
      · obtain rfl : p = q := Option.some.inj (hp.symm.trans hq)
        refine .inr ⟨hmem, raw, hadd, h₃.raw, h₃.next, h₃.nextFence, h₃.live.trans ?_⟩
        show ((r.next :: r.live).erase p).Perm (r.next :: r.live.erase p)
        by_cases he : r.next = p
        · subst he
          rw [List.erase_cons_head]
          exact List.perm_cons_erase hmem
        · rw [List.erase_cons_tail (by simpa using he)]
    case h_2 => exact absurd hs (unwind_returned _)
    case h_3 hne _ => exact absurd hs (hne s')
  case h_2 => exact absurd hs (unwind_returned _)
  case h_3 hne _ => exact absurd hs (hne s')

theorem response (h : Records s r) (hi : s.live[i]? = some c) (hp : c.response = some p)
    (hs : s.response i = (s', .returned)) :
    s'.block = none ∨ ∃ r', r.step (.response p) = some r' ∧ Records s' r' := by
  obtain ⟨b, hb, hraw⟩ := Option.map_eq_some_iff.mp h.raw
  simp only [Copies.response, hb, hraw] at hs
  split at hs
  case h_1 => exact absurd hs (unwind_returned _)
  case h_2 handles raw hget =>
    have h₁ : Records { s with block := some { b with raw := raw } } { r with raw := raw } :=
      ⟨rfl, h.next, h.nextFence, h.live⟩
    rcases h₁.drop hi hs with hnone | ⟨hno, -⟩ | ⟨q, -, hq, h₂⟩
    · exact .inl hnone
    · simp [hp] at hno
    · obtain rfl : p = q := Option.some.inj (hp.symm.trans hq)
      refine .inr ⟨_, ?_, h₂⟩
      simp [Recorder.step, Recorder.consume, h.mem_live hi hp, hget]

theorem linkChains {d k : Nat} (h : Records s r) (hs : s.linkChains c d k = (s', .returned)) :
    ∃ r', r.step (.linkChains d k) = some r' ∧ Records s' r' := by
  obtain ⟨b, hb, hraw⟩ := Option.map_eq_some_iff.mp h.raw
  simp only [Copies.linkChains, hb, hraw] at hs
  split at hs
  · simp at hs
  · obtain ⟨rfl, -⟩ := Prod.mk.inj hs
    exact ⟨_, rfl, rfl, h.next, h.nextFence, h.live⟩

theorem createFence {k : Nat} (h : Records s r) (hs : s.createFence c k = (s', .returned)) :
    ∃ r', r.step (.createFence k) = some r' ∧ Records s' r' := by
  obtain ⟨b, hb, hraw⟩ := Option.map_eq_some_iff.mp h.raw
  simp only [Copies.createFence, hb, hraw, h.nextFence] at hs
  split at hs
  · simp at hs
  · obtain ⟨rfl, -⟩ := Prod.mk.inj hs
    exact ⟨_, rfl, rfl, h.next, rfl, h.live⟩

/-- A baked copy is the last one, so its submission releases the buffer. -/
theorem tasks (hk : Counted s) (hi : s.live[i]? = some c) (hs : s.tasks i c = (s', .returned)) :
    s'.block = none := by
  have hmem : c ∈ s.live := List.mem_of_getElem? hi
  unfold Copies.tasks at hs
  split at hs
  case h_1 => exact absurd hs (unwind_returned _)
  case h_2 ts hts =>
    have hone := hk.sole c hmem (by simp [hts])
    obtain ⟨b, hb, hrefs⟩ := hk.exists_block (List.ne_nil_of_mem hmem)
    simp only [Copies.drop, hb, hrefs, hone] at hs
    obtain ⟨rfl, -⟩ := Prod.mk.inj hs
    rfl

/-- A call that returns is at most one call of the recorder. -/
theorem step (h : Records s r) (hk : Counted s) (hs : s.step call = some (s', .returned))
    (hf : ∀ i, call ≠ .finish i) :
    s'.block = none ∨ ∃ cs r', r.run cs = some r' ∧ Records s' r' := by
  have one : ∀ {d}, (∃ r', r.step d = some r' ∧ Records s' r') →
      ∃ cs r', r.run cs = some r' ∧ Records s' r' := by
    rintro d ⟨r', hd, h'⟩
    exact ⟨[d], r', by simp [Recorder.run, hd], h'⟩
  cases step_cases hs with
  | clone hi he => exact .inr ⟨[], r, rfl, (h.clone he).1⟩
  | drop hi he =>
      rcases h.drop hi he with hnone | ⟨-, h'⟩ | ⟨p, hp, -, h'⟩
      · exact .inl hnone
      · exact .inr ⟨[], r, rfl, h'⟩
      · exact .inr (one (d := .drop p) ⟨_, if_pos hp, h'⟩)
  | addSyncCommand hi he =>
      obtain ⟨raw, hadd, h'⟩ := h.addRoot he
      exact .inr (one (d := .rootSync) ⟨_, by rw [Recorder.step, hadd]; rfl, h'⟩)
  | addCommand hi he =>
      obtain ⟨raw, hadd, h'⟩ := h.addRoot he
      exact .inr (one (d := .root) ⟨_, by rw [Recorder.step, hadd]; rfl, h'⟩)
  | @chainSync i c p hi hp he =>
      refine (h.addChained hi hp he).imp_right ?_
      rintro ⟨hmem, raw, hadd, h'⟩
      exact one (d := .chainSync p) ⟨_, by simp [Recorder.step, Recorder.consume, hmem, hadd], h'⟩
  | @chain i c p hi hp he =>
      refine (h.addChained hi hp he).imp_right ?_
      rintro ⟨hmem, raw, hadd, h'⟩
      exact one (d := .chain p) ⟨_, by simp [Recorder.step, Recorder.consume, hmem, hadd], h'⟩
  | response hi hp he => exact (h.response hi hp he).imp_right one
  | linkChains hi he => exact .inr (one (h.linkChains he))
  | createFence hi he => exact .inr (one (h.createFence he))
  | finish => exact absurd rfl (hf _)
  | submit hi _ he => exact .inl (tasks hk hi he)

end Records

/-- The states that calls lead to if they all return, without a `finish`. -/
inductive Records.Leads (s₀ : Copies) : Copies → Prop where
  | init : Records.Leads s₀ s₀
  | step {s s' : Copies} (call : CopyCall) (h : Records.Leads s₀ s)
      (hs : s.step call = some (s', .returned)) (hf : ∀ i, call ≠ .finish i) :
      Records.Leads s₀ s'

/-- Until the copies are dropped they have recorded what a run of the recorder does. -/
theorem recorded (home : Bool) (s : Copies) (h : Records.Leads (new home) s) :
    s.block = none ∨ ∃ cs r, (Recorder.new home).run cs = some r ∧ Records s r := by
  suffices h' : Counted s ∧ (s.block = none ∨
      ∃ cs r, (Recorder.new home).run cs = some r ∧ Records s r) from h'.2
  induction h with
  | init => exact ⟨.new home, .inr ⟨[], _, rfl, .new home⟩⟩
  | step call _ hs hf ih =>
      obtain ⟨hk, hnone | ⟨cs, r, hr, hrec⟩⟩ := ih
      · rw [step_of_nil (hk.block_eq_none.mp hnone)] at hs
        cases hs
      · refine ⟨(hk.step hs).2, (hrec.step hk hs hf).imp_right ?_⟩
        rintro ⟨cs', r', hr', hrec'⟩
        exact ⟨cs ++ cs', r', by rw [run_append, hr]; exact hr', hrec'⟩

/-! ## What is baked -/

theorem fenceLoop_of_ok {tasks : List TaskChain} {fences : List (Nat × FenceId)}
    {bound bound' : FenceId → Option TaskId}
    (h : RawCommandBuffer.bindFences tasks fences bound = .ok bound') :
    RawCommandBuffer.fenceLoop tasks fences bound = (none, bound') := by
  induction fences generalizing bound with
  | nil => exact congrArg (Prod.mk none) (Except.ok.inj h)
  | cons f fences ih =>
      simp only [RawCommandBuffer.bindFences] at h
      simp only [RawCommandBuffer.fenceLoop]
      cases hi : tasks[f.1]? with
      | some chain =>
          simp only [hi] at h
          exact ih h
      | none => simp [hi] at h

theorem linkLoop_of_ok {links : List (Nat × Nat)} {tasks tasks' : List TaskChain}
    {next next' : SemId}
    (h : RawCommandBuffer.linkChains links tasks next = .ok (tasks', next')) :
    RawCommandBuffer.linkLoop links tasks next = (none, tasks', next') := by
  induction links generalizing tasks next with
  | nil => exact congrArg (Prod.mk none) (Except.ok.inj h)
  | cons l links ih =>
      simp only [RawCommandBuffer.linkChains] at h
      simp only [RawCommandBuffer.linkLoop]
      split at h
      · rw [if_pos ‹_›]
        exact ih h
      · cases h

/-- The copy that is baked has the tasks of `RawCommandBuffer::finish`. -/
theorem bake_eq {baked : Baked} (hf : s.fence = fun _ => none)
    (h : b.raw.finish s.nextSemaphore = .ok baked) :
    s.bake i c b =
      ({ s with
          block := some { b with raw := { b.raw with fences := [], chainLinks := [], tasks := [] } }
          live := s.live.set i { c with baked := some baked.tasks }
          fence := baked.fence
          nextSemaphore := baked.next }, .returned) := by
  cases hfence : RawCommandBuffer.bindFences b.raw.tasks b.raw.fences fun _ => none with
  | error message => simp [RawCommandBuffer.finish, hfence, bind, Except.bind] at h
  | ok fence =>
      cases hlink : RawCommandBuffer.linkChains b.raw.chainLinks b.raw.tasks s.nextSemaphore with
      | error message => simp [RawCommandBuffer.finish, hfence, hlink, bind, Except.bind] at h
      | ok linked =>
          simp only [RawCommandBuffer.finish, hfence, hlink, bind, Except.bind] at h
          obtain rfl := Except.ok.inj h
          simp [bake, hf, fenceLoop_of_ok hfence, linkLoop_of_ok hlink]

end Copies

end MVSync
