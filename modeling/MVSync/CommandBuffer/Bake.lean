import Mathlib.Algebra.GroupWithZero.Nat
import Mathlib.Data.List.Basic
import MVSync.CommandBuffer.Record

/-!
# Baking a command buffer

`RawCommandBuffer::finish` of `command_buffers/buffer.rs`.

A semaphore is allocated with `Semaphore::new`.  Semaphores are numbered in the
order of their allocation, so a fresh one has the next number.

The three loops of `finish` change the tasks in place: the fences and the links
at the ends of the chains, and then every two neighbours of a chain.  Each loop
only appends to the semaphores of the tasks, so it is a `Task.rewire` of the
tasks at their positions, and the loops compose.
-/

namespace MVSync

/-! ## The chains -/

namespace TaskChain

/-- `TaskChain::starting_semaphore`. -/
def startingSemaphore (c : TaskChain) (semaphore : SemId) : TaskChain :=
  if c.tasks.isEmpty then c
  else { c with tasks := c.tasks.modify 0 (·.bindSemaphore semaphore .wait) }

/-- `TaskChain::ending_semaphore`. -/
def endingSemaphore (c : TaskChain) (semaphore : SemId) : TaskChain :=
  if c.tasks.isEmpty then c
  else
    let i := c.tasks.length - 1
    { c with tasks := c.tasks.modify i (·.bindSemaphore semaphore .signal) }

/-- `TaskChain::ending_fence`. -/
def endingFence (c : TaskChain) (fence : FenceId) (bound : FenceId → Option TaskId) :
    FenceId → Option TaskId :=
  match c.tasks[c.tasks.length - 1]? with
  | none => bound
  | some x => x.bindFence fence bound

/-- One turn of the loop of `TaskChain::chain_semaphores`, with the number of the
next semaphore. -/
def chainTurn (s : List Task × SemId) (i : Nat) : List Task × SemId :=
  let tasks := s.1.modify (i - 1) (·.bindSemaphore s.2 .signal)
  (tasks.modify i (·.bindSemaphore s.2 .wait), s.2 + 1)

/-- `TaskChain::chain_semaphores`. -/
def chainSemaphores (c : TaskChain) (next : SemId) : List Task × SemId :=
  (List.range' 1 (c.tasks.length - 1)).foldl chainTurn (c.tasks, next)

end TaskChain

/-! ## The buffer -/

/-- What a command buffer is once it is baked: its tasks, the fences that were
bound, and the number of the next semaphore. -/
structure Baked where
  tasks : List Task
  fence : FenceId → Option TaskId
  next : SemId

namespace RawCommandBuffer

/-- The loop of `finish` over the fences. -/
def bindFences (tasks : List TaskChain) :
    List (Nat × FenceId) → (FenceId → Option TaskId) → Except String (FenceId → Option TaskId)
  | [], bound => .ok bound
  | (i, fence) :: fences, bound =>
      match tasks[i]? with
      | some chain => bindFences tasks fences (chain.endingFence fence bound)
      | none => .error ("Fence index '" ++ toString i ++ "' out of bounds")

/-- The loop of `finish` over the links. -/
def linkChains : List (Nat × Nat) → List TaskChain → SemId → Except String (List TaskChain × SemId)
  | [], tasks, next => .ok (tasks, next)
  | (e, s) :: links, tasks, next =>
      if e < tasks.length ∧ s < tasks.length then
        let tasks := tasks.modify e (·.endingSemaphore next)
        linkChains links (tasks.modify s (·.startingSemaphore next)) (next + 1)
      else
        .error ("Semaphore index '" ++ toString s ++ "' or '" ++ toString e ++ "' out of bounds")

/-- The last line of `finish`: every chain is chained, and they are
concatenated. -/
def chainAll : List TaskChain → SemId → List Task × SemId
  | [], next => ([], next)
  | chain :: chains, next =>
      let here := chain.chainSemaphores next
      let rest := chainAll chains here.2
      (here.1 ++ rest.1, rest.2)

/-- `RawCommandBuffer::finish`.  `next` is the number of the next semaphore. -/
def finish (b : RawCommandBuffer) (next : SemId) : Except String Baked := do
  let fence ← bindFences b.tasks b.fences fun _ => none
  let linked ← linkChains b.chainLinks b.tasks next
  let chained := chainAll linked.1 linked.2
  return ⟨chained.1, fence, chained.2⟩

end RawCommandBuffer

/-! ## What the loops append -/

/-- Append semaphores to wait for and to signal. -/
def Task.bindAll (x : Task) (waits signals : List SemId) : Task :=
  { x with wait := x.wait ++ waits, semaphores := x.semaphores ++ signals }

@[simp] theorem Task.bindAll_nil (x : Task) : x.bindAll [] [] = x := by simp [bindAll]

@[simp] theorem Task.bindAll_bindAll (x : Task) (ws ss ws' ss' : List SemId) :
    (x.bindAll ws ss).bindAll ws' ss' = x.bindAll (ws ++ ws') (ss ++ ss') := by
  simp [bindAll]

/-- Append semaphores to the task at every position. -/
def rewire (waits signals : Nat → List SemId) (xs : List Task) : List Task :=
  xs.mapIdx fun j x => x.bindAll (waits j) (signals j)

section

variable {waits signals waits' signals' : Nat → List SemId} {xs : List Task}

@[simp] theorem length_rewire : (rewire waits signals xs).length = xs.length := by simp [rewire]

theorem rewire_congr (h : ∀ j < xs.length, waits j = waits' j ∧ signals j = signals' j) :
    rewire waits signals xs = rewire waits' signals' xs := by
  refine List.mapIdx_eq_mapIdx_iff.mpr fun j hj => ?_
  rw [(h j hj).1, (h j hj).2]

theorem rewire_rewire : rewire waits' signals' (rewire waits signals xs) =
    rewire (fun j => waits j ++ waits' j) (fun j => signals j ++ signals' j) xs := by
  simp [rewire, List.mapIdx_mapIdx, Function.comp_def]

theorem rewire_nil : rewire (fun _ => []) (fun _ => []) xs = xs := by
  simp [rewire, List.mapIdx_eq_iff]

/-- A semaphore to wait for is bound to the task at `i`. -/
theorem modify_wait (g : SemId) (i : Nat) : xs.modify i (·.bindSemaphore g .wait) =
    rewire (fun j => if j = i then [g] else []) (fun _ => []) xs := by
  refine List.ext_getElem? fun j => ?_
  rw [List.getElem?_modify, rewire, List.getElem?_mapIdx]
  by_cases hj : i = j
  · subst hj
    simp [Task.bindSemaphore, Task.bindAll]
  · simp [hj, Ne.symm hj]

/-- A semaphore to signal is bound to the task at `i`. -/
theorem modify_signal (g : SemId) (i : Nat) : xs.modify i (·.bindSemaphore g .signal) =
    rewire (fun _ => []) (fun j => if j = i then [g] else []) xs := by
  refine List.ext_getElem? fun j => ?_
  rw [List.getElem?_modify, rewire, List.getElem?_mapIdx]
  by_cases hj : i = j
  · subst hj
    simp [Task.bindSemaphore, Task.bindAll]
  · simp [hj, Ne.symm hj]

end

namespace TaskChain

/-- Append semaphores to the tasks of a chain. -/
def rewire (c : TaskChain) (waits signals : Nat → List SemId) : TaskChain :=
  { c with tasks := MVSync.rewire waits signals c.tasks }

variable {c : TaskChain}

theorem rewire_nil : c.rewire (fun _ => []) (fun _ => []) = c := by
  simp [rewire, MVSync.rewire_nil]

theorem rewire_of_nil {waits signals : Nat → List SemId} (h : c.tasks = []) :
    c.rewire waits signals = c := by
  cases c
  subst h
  rfl

theorem startingSemaphore_eq (g : SemId) :
    c.startingSemaphore g = c.rewire (fun j => if j = 0 then [g] else []) (fun _ => []) := by
  unfold startingSemaphore
  split
  case isTrue h =>
    exact (rewire_of_nil (List.isEmpty_iff.mp h)).symm
  case isFalse => rw [modify_wait, rewire]

theorem endingSemaphore_eq (g : SemId) : c.endingSemaphore g =
    c.rewire (fun _ => []) fun j => if j + 1 = c.tasks.length then [g] else [] := by
  unfold endingSemaphore
  split
  case isTrue h =>
    exact (rewire_of_nil (List.isEmpty_iff.mp h)).symm
  case isFalse h =>
    have hpos : c.tasks.length ≠ 0 := fun h0 => h (by simp [List.length_eq_zero_iff.mp h0])
    simp only [modify_signal, rewire]
    congr 1
    refine rewire_congr fun j hj => ⟨rfl, ?_⟩
    congr 1
    simp only [eq_iff_iff]
    omega

theorem endingFence_of_ne {f g : FenceId} {bound : FenceId → Option TaskId} (h : g ≠ f) :
    c.endingFence f bound g = bound g := by
  unfold endingFence
  cases c.tasks[c.tasks.length - 1]? with
  | none => rfl
  | some x => exact Function.update_of_ne h _ _

theorem endingFence_self {f : FenceId} {bound : FenceId → Option TaskId} {x : Task}
    (h : c.tasks.getLast? = some x) : c.endingFence f bound f = some x.id := by
  rw [List.getLast?_eq_getElem?] at h
  rw [endingFence, h]
  exact Function.update_self _ _ _

/-- After `n` turns of its loop, the first `n + 1` tasks of a chain are
chained. -/
theorem chainTurns_eq (next : SemId) (xs : List Task) (n : Nat) :
    (List.range' 1 n).foldl chainTurn (xs, next) =
      (MVSync.rewire (fun j => if 0 < j ∧ j ≤ n then [next + (j - 1)] else [])
        (fun j => if j < n then [next + j] else []) xs, next + n) := by
  induction n with
  | zero =>
      have h : ∀ j, ¬(0 < j ∧ j ≤ 0) := by omega
      simp only [h, if_false, Nat.not_lt_zero, MVSync.rewire_nil]
      rfl
  | succ n ih =>
      rw [List.range'_1_concat, List.foldl_append, ih]
      simp only [List.foldl_cons, List.foldl_nil, chainTurn, modify_signal, modify_wait,
        rewire_rewire, Prod.mk.injEq, Nat.add_assoc, and_true]
      refine rewire_congr fun j _ => ⟨?_, ?_⟩
      · by_cases hj : j = 1 + n
        · subst hj
          have h : 0 < 1 + n ∧ 1 + n ≤ n + 1 := by omega
          simp [h]
        · have : (0 < j ∧ j ≤ n + 1) ↔ 0 < j ∧ j ≤ n := by omega
          simp [hj, this]
      · by_cases hj : j = n
        · subst hj
          simp
        · have : j < n + 1 ↔ j < n := by omega
          simp [hj, this]

/-- The number of pairs of neighbours in a chain. -/
def gaps (c : TaskChain) : Nat := c.tasks.length - 1

/-- `chain_semaphores` takes one semaphore for every two neighbours. -/
theorem chainSemaphores_eq (next : SemId) : c.chainSemaphores next =
    (MVSync.rewire (fun j => if 0 < j then [next + (j - 1)] else [])
      (fun j => if j + 1 < c.tasks.length then [next + j] else []) c.tasks, next + c.gaps) := by
  rw [chainSemaphores, chainTurns_eq, gaps]
  refine Prod.ext (rewire_congr fun j hj => ⟨?_, ?_⟩) rfl
  · congr 1
    simp only [eq_iff_iff]
    omega
  · congr 1
    simp only [eq_iff_iff]
    omega

end TaskChain

/-- The semaphores of the links that `p` picks, when the first link has
semaphore `next`. -/
def linkSems (p : Nat × Nat → Bool) : List (Nat × Nat) → SemId → List SemId
  | [], _ => []
  | link :: links, next => (if p link then [next] else []) ++ linkSems p links (next + 1)

theorem mem_linkSems {p : Nat × Nat → Bool} {links : List (Nat × Nat)} {next g : SemId} :
    g ∈ linkSems p links next ↔ ∃ n l, links[n]? = some l ∧ p l = true ∧ next + n = g := by
  induction links generalizing next with
  | nil => simp [linkSems]
  | cons link links ih =>
      rw [linkSems, List.mem_append, ih]
      constructor
      · rintro (hg | ⟨n, l, hl, hp, rfl⟩)
        · split at hg
          case isTrue hp => exact ⟨0, link, rfl, hp, by simpa [eq_comm] using hg⟩
          case isFalse => cases hg
        · exact ⟨n + 1, l, hl, hp, (Nat.succ_add_eq_add_succ next n).symm⟩
      · rintro ⟨n, l, hl, hp, rfl⟩
        cases n with
        | zero =>
            obtain rfl : link = l := Option.some.inj hl
            simp [hp]
        | succ n => exact .inr ⟨n, l, hl, hp, Nat.succ_add_eq_add_succ next n⟩

theorem nodup_linkSems {p : Nat × Nat → Bool} {links : List (Nat × Nat)} {next : SemId} :
    (linkSems p links next).Nodup := by
  induction links generalizing next with
  | nil => exact List.nodup_nil
  | cons link links ih =>
      rw [linkSems]
      split
      case isTrue =>
        refine List.nodup_cons.mpr ⟨fun hg => ?_, ih⟩
        obtain ⟨n, -, -, -, he⟩ := mem_linkSems.mp hg
        exact absurd he (Nat.ne_of_gt (Nat.lt_add_right n (Nat.lt_succ_self next)))
      case isFalse => exact ih

namespace RawCommandBuffer

/-- The fence and link indices are in range. -/
structure InRange (b : RawCommandBuffer) : Prop where
  fences : ∀ f ∈ b.fences, f.1 < b.tasks.length
  links : ∀ l ∈ b.chainLinks, l.1 < b.tasks.length ∧ l.2 < b.tasks.length

/-- What the links append to the tasks of chain `k`. -/
def linkChain (links : List (Nat × Nat)) (next : SemId) (k : Nat) (c : TaskChain) : TaskChain :=
  c.rewire (fun j => if j = 0 then linkSems (·.2 == k) links next else [])
    fun j => if j + 1 = c.tasks.length then linkSems (·.1 == k) links next else []

theorem linkChain_nil (next : SemId) (k : Nat) (c : TaskChain) : linkChain [] next k c = c := by
  simp [linkChain, linkSems, TaskChain.rewire_nil]

/-- One turn of the loop over the links. -/
theorem linkTurn_eq (e s : Nat) (next : SemId) (tasks : List TaskChain) :
    (tasks.modify e (·.endingSemaphore next)).modify s (·.startingSemaphore next) =
      tasks.mapIdx (linkChain [(e, s)] next) := by
  refine List.ext_getElem? fun k => ?_
  rw [List.getElem?_modify, List.getElem?_modify, List.getElem?_mapIdx]
  simp only [Option.map_eq_map, Option.map_map]
  congr 1
  funext c
  simp only [Function.comp_apply, linkChain, linkSems, List.append_nil, beq_iff_eq]
  by_cases he : e = k <;> by_cases hs : s = k <;>
    simp [he, hs, TaskChain.startingSemaphore_eq, TaskChain.endingSemaphore_eq, TaskChain.rewire,
      rewire_rewire, MVSync.rewire_nil]

theorem linkChain_linkChain (link : Nat × Nat) (links : List (Nat × Nat)) (next : SemId) (k : Nat)
    (c : TaskChain) : linkChain links (next + 1) k (linkChain [link] next k c) =
      linkChain (link :: links) next k c := by
  simp only [linkChain, TaskChain.rewire, rewire_rewire, length_rewire]
  congr 1
  refine rewire_congr fun j _ => ⟨?_, ?_⟩
  · split <;> simp [linkSems]
  · split <;> simp [linkSems]

/-- The loop over the links takes one semaphore for every link. -/
theorem linkChains_eq {links : List (Nat × Nat)} {tasks : List TaskChain} {next : SemId}
    (h : ∀ l ∈ links, l.1 < tasks.length ∧ l.2 < tasks.length) :
    linkChains links tasks next =
      .ok (tasks.mapIdx (linkChain links next), next + links.length) := by
  induction links generalizing tasks next with
  | nil =>
      have hid : tasks.mapIdx (linkChain [] next) = tasks :=
        List.mapIdx_eq_iff.mpr fun k => by
          cases tasks[k]? <;> simp [linkChain_nil]
      rw [linkChains, hid]
      rfl
  | cons link links ih =>
      obtain ⟨e, s⟩ := link
      rw [linkChains, if_pos (h _ List.mem_cons_self)]
      dsimp only
      rw [linkTurn_eq, ih (by simpa using fun e s hl => h (e, s) (List.mem_cons_of_mem _ hl)),
        List.mapIdx_mapIdx]
      refine congrArg Except.ok (Prod.ext ?_ ?_)
      · refine List.mapIdx_eq_mapIdx_iff.mpr fun k _ => ?_
        exact linkChain_linkChain (e, s) links next k _
      · exact Nat.succ_add_eq_add_succ next links.length

/-- The semaphores that the chains before `k` take for their neighbours. -/
def offset (chains : List TaskChain) (k : Nat) : Nat := ((chains.take k).map TaskChain.gaps).sum

theorem offset_succ_cons (c : TaskChain) (chains : List TaskChain) (k : Nat) :
    offset (c :: chains) (k + 1) = c.gaps + offset chains k := by
  simp [offset]

/-- The concatenation of the chains, each with its neighbours chained. -/
theorem chainAll_eq (chains : List TaskChain) (next : SemId) : (chainAll chains next).1 =
    (chains.mapIdx fun k c => rewire
      (fun j => if 0 < j then [next + offset chains k + (j - 1)] else [])
      (fun j => if j + 1 < c.tasks.length then [next + offset chains k + j] else [])
      c.tasks).flatten := by
  induction chains generalizing next with
  | nil => rfl
  | cons c chains ih =>
      rw [chainAll, List.mapIdx_cons, List.flatten_cons]
      simp only [TaskChain.chainSemaphores_eq, ih, offset_succ_cons, ← Nat.add_assoc]
      simp [offset]

/-- The semaphores that task `j` of chain `k` waits for. -/
def waitSems (b : RawCommandBuffer) (next : SemId) (k j : Nat) : List SemId :=
  (if j = 0 then linkSems (·.2 == k) b.chainLinks next else []) ++
    if 0 < j then [next + b.chainLinks.length + offset b.tasks k + (j - 1)] else []

/-- The semaphores that task `j` of chain `k`, which has `n` tasks, signals. -/
def signalSems (b : RawCommandBuffer) (next : SemId) (k n j : Nat) : List SemId :=
  (if j + 1 = n then linkSems (·.1 == k) b.chainLinks next else []) ++
    if j + 1 < n then [next + b.chainLinks.length + offset b.tasks k + j] else []

/-- The chains with their semaphores. -/
def wired (b : RawCommandBuffer) (next : SemId) : List (List Task) :=
  b.tasks.mapIdx fun k c => rewire (b.waitSems next k) (b.signalSems next k c.tasks.length) c.tasks

/-- Linking leaves the lengths of the chains as they are. -/
theorem offset_linkChain (links : List (Nat × Nat)) (next : SemId) (chains : List TaskChain)
    (k : Nat) : offset (chains.mapIdx (linkChain links next)) k = offset chains k := by
  have hgaps : (chains.mapIdx (linkChain links next)).map TaskChain.gaps =
      chains.map TaskChain.gaps := by
    refine List.ext_getElem? fun j => ?_
    cases hj : chains[j]? <;> simp [hj, linkChain, TaskChain.rewire, TaskChain.gaps]
  rw [offset, List.map_take, hgaps, ← List.map_take, offset]

theorem chainAll_linkChains (b : RawCommandBuffer) (next : SemId) :
    (chainAll (b.tasks.mapIdx (linkChain b.chainLinks next)) (next + b.chainLinks.length)).1 =
      (b.wired next).flatten := by
  rw [chainAll_eq, List.mapIdx_mapIdx, wired]
  congr 1
  refine List.mapIdx_eq_mapIdx_iff.mpr fun k _ => ?_
  simp only [Function.comp_apply, linkChain, TaskChain.rewire, length_rewire, rewire_rewire]
  refine rewire_congr fun j _ => ⟨?_, ?_⟩
  · simp only [waitSems]
    rw [← offset_linkChain b.chainLinks next b.tasks k]
  · simp only [signalSems]
    rw [← offset_linkChain b.chainLinks next b.tasks k]

/-- Every fence is bound to the last task of its chain. -/
theorem bindFences_eq {tasks : List TaskChain} {fences : List (Nat × FenceId)}
    (hr : ∀ f ∈ fences, f.1 < tasks.length) (hn : (fences.map Prod.snd).Nodup)
    (bound : FenceId → Option TaskId) :
    ∃ bound', bindFences tasks fences bound = .ok bound' ∧
      (∀ f ∉ fences.map Prod.snd, bound' f = bound f) ∧
      ∀ i f c x, (i, f) ∈ fences → tasks[i]? = some c → c.tasks.getLast? = some x →
        bound' f = some x.id := by
  induction fences generalizing bound with
  | nil => exact ⟨bound, rfl, fun _ _ => rfl, nofun⟩
  | cons fence fences ih =>
      obtain ⟨i, f⟩ := fence
      obtain ⟨hf, hn⟩ := List.nodup_cons.mp hn
      obtain ⟨chain, hi⟩ : ∃ chain, tasks[i]? = some chain :=
        ⟨_, List.getElem?_eq_getElem (hr (i, f) List.mem_cons_self)⟩
      obtain ⟨bound', hb, hold, hnew⟩ := ih (fun g hg => hr g (List.mem_cons_of_mem _ hg)) hn
        (chain.endingFence f bound)
      refine ⟨bound', by rw [bindFences, hi]; exact hb, fun g hg => ?_, fun k g c x hm hc hx => ?_⟩
      · rw [List.map_cons, List.mem_cons, not_or] at hg
        rw [hold g hg.2, TaskChain.endingFence_of_ne hg.1]
      · rcases List.mem_cons.mp hm with he | hm
        · obtain ⟨rfl, rfl⟩ := Prod.mk.inj he
          obtain rfl := Option.some.inj (hi.symm.trans hc)
          rw [hold g hf, TaskChain.endingFence_self hx]
        · exact hnew k g c x hm hc hx

/-- What `finish` returns when the indices are in range. -/
theorem finish_eq {b : RawCommandBuffer} (h : b.InRange) (hn : (b.fences.map Prod.snd).Nodup)
    (next : SemId) :
    ∃ baked, b.finish next = .ok baked ∧ baked.tasks = (b.wired next).flatten ∧
      ∀ i f c x, (i, f) ∈ b.fences → b.tasks[i]? = some c → c.tasks.getLast? = some x →
        baked.fence f = some x.id := by
  obtain ⟨fence, hf, -, hfence⟩ := bindFences_eq h.fences hn fun _ => none
  let chained :=
    chainAll (b.tasks.mapIdx (linkChain b.chainLinks next)) (next + b.chainLinks.length)
  have hfinish : b.finish next = .ok ⟨chained.1, fence, chained.2⟩ := by
    rw [finish, hf, linkChains_eq h.links]
    rfl
  exact ⟨_, hfinish, chainAll_linkChains b next, hfence⟩

/-- Only a fence whose index is in range can be bound. -/
theorem inRange_of_bindFences {tasks : List TaskChain} {fences : List (Nat × FenceId)}
    {bound bound' : FenceId → Option TaskId} (h : bindFences tasks fences bound = .ok bound') :
    ∀ f ∈ fences, f.1 < tasks.length := by
  induction fences generalizing bound with
  | nil => exact List.forall_mem_nil _
  | cons fence fences ih =>
      obtain ⟨i, f⟩ := fence
      rw [bindFences] at h
      split at h
      case h_1 chain hc =>
        exact List.forall_mem_cons.mpr ⟨(List.getElem?_eq_some_iff.mp hc).1, ih h⟩
      case h_2 => cases h

/-- Only chains whose indices are in range can be linked. -/
theorem inRange_of_linkChains {links : List (Nat × Nat)} {tasks : List TaskChain} {next : SemId}
    {linked : List TaskChain × SemId} (h : linkChains links tasks next = .ok linked) :
    ∀ l ∈ links, l.1 < tasks.length ∧ l.2 < tasks.length := by
  induction links generalizing tasks next with
  | nil => exact List.forall_mem_nil _
  | cons link links ih =>
      obtain ⟨e, s⟩ := link
      rw [linkChains] at h
      split at h
      case isTrue hl => exact List.forall_mem_cons.mpr ⟨hl, by simpa using ih h⟩
      case isFalse => cases h

/-- `finish` panics unless the indices are in range. -/
theorem inRange_of_finish {b : RawCommandBuffer} {next : SemId} {baked : Baked}
    (h : b.finish next = .ok baked) : b.InRange := by
  rw [finish] at h
  cases hf : bindFences b.tasks b.fences fun _ => none with
  | error =>
      rw [hf] at h
      cases h
  | ok fence =>
      cases hl : linkChains b.chainLinks b.tasks next with
      | error =>
          rw [hf, hl] at h
          cases h
      | ok linked => exact ⟨inRange_of_bindFences hf, inRange_of_linkChains hl⟩

end RawCommandBuffer

end MVSync
