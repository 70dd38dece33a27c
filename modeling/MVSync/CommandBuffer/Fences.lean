import MVSync.CommandBuffer.Wiring

/-!
# The fences of a command buffer

`finish` binds a fence to the last task of its chain.  It panics when there is no
such chain, but a chain without tasks is passed over (`TaskChain::ending_fence`).
Only a buffer without any command has such a chain: the one that
`CommandBuffer::new` writes.  Its fences stay unbound.
-/

namespace MVSync

/-! ## What a recording leaves behind -/

/-- The chain of the fence that a call creates. -/
def Call.fence : Call → Option Nat
  | .createFence i => some i
  | _ => none

/-- The chains that a call links. -/
def Call.link : Call → Option (Nat × Nat)
  | .linkChains d s => some (d, s)
  | _ => none

/-- A call that records a command creates no fence and no link. -/
theorem Call.of_inner {c : Call} {inner : Inner} (hc : c.inner = some inner) :
    c.fence = none ∧ c.link = none := by
  cases c <;> cases hc <;> exact ⟨rfl, rfl⟩

/-- What a call adds to the fences, to the links and to the commands. -/
theorem RecordStep.lists {r r' : Recorder} {closed closed' : List TaskChain}
    {current current' : TaskChain} {c : Call}
    (hs : RecordStep r closed current c closed' current' r') :
    r'.raw.fences.map Prod.fst = r.raw.fences.map Prod.fst ++ c.fence.toList ∧
      r'.raw.chainLinks = r.raw.chainLinks ++ c.link.toList ∧
      r'.next = r.next + c.inner.toList.length := by
  cases hs with
  | first hc | root hc | chain hc =>
      rw [(Call.of_inner hc).1, (Call.of_inner hc).2, hc]
      exact ⟨(List.append_nil _).symm, (List.append_nil _).symm, rfl⟩
  | response | drop => exact ⟨(List.append_nil _).symm, (List.append_nil _).symm, rfl⟩
  | linkChains => exact ⟨(List.append_nil _).symm, rfl, rfl⟩
  | createFence => exact ⟨List.map_append, (List.append_nil _).symm, rfl⟩

namespace Recorder.Recorded

variable {r r' : Recorder} {closed : List TaskChain} {current : TaskChain} {first : SemId}

/-- What a sequence of calls adds. -/
theorem run_lists {cs : List Call} (h : r.Recorded closed current) (hr : r.run cs = some r') :
    r'.raw.fences.map Prod.fst = r.raw.fences.map Prod.fst ++ cs.filterMap Call.fence ∧
      r'.raw.chainLinks = r.raw.chainLinks ++ cs.filterMap Call.link ∧
      r'.next = r.next + (cs.filterMap Call.inner).length := by
  have hcons : ∀ {α : Type} (f : Call → Option α) (c : Call) (cs : List Call),
      (c :: cs).filterMap f = (f c).toList ++ cs.filterMap f := fun f c cs => by
    cases hf : f c <;> simp [hf]
  induction cs generalizing r closed current with
  | nil =>
      obtain rfl := Option.some.inj hr
      simp
  | cons c cs ih =>
      obtain ⟨r₁, hs, hr⟩ := Option.bind_eq_some_iff.mp hr
      obtain ⟨closed₁, current₁, hs⟩ := Recorder.step_inv h.parts hs
      obtain ⟨hf, hl, hn⟩ := ih (h.step hs) hr
      obtain ⟨hf₁, hl₁, hn₁⟩ := hs.lists
      rw [hf, hl, hn, hf₁, hl₁, hn₁, hcons, hcons, hcons, List.append_assoc, List.append_assoc,
        List.length_append, Nat.add_assoc]
      exact ⟨rfl, rfl, rfl⟩

/-- A buffer without commands has one chain, which is empty. -/
theorem tasks_of_next (h : r.Recorded closed current) (hn : r.next = 0) :
    r.raw.tasks = [current] ∧ current.tasks = [] := by
  have hnil : r.raw.commands = [] := by
    have hids := h.ids
    rw [hn] at hids
    exact List.map_eq_nil_iff.mp hids
  have hcurrent : current.tasks = [] :=
    List.flatMap_eq_nil_iff.mp hnil current (by simp [h.parts.tasks])
  refine ⟨?_, hcurrent⟩
  rw [h.parts.tasks, h.opened.2 hcurrent, List.nil_append]

/-- A buffer with a command has no empty chain. -/
theorem ne_nil_of_next (h : r.Recorded closed current) (hn : r.next ≠ 0) {c : TaskChain}
    (hc : c ∈ r.raw.tasks) : c.tasks ≠ [] := by
  have hne : r.raw.commands ≠ [] := by
    intro hnil
    have hids := h.ids
    rw [hnil, List.map_nil, eq_comm, List.range_eq_nil] at hids
    exact hn hids
  obtain ⟨x, hx⟩ := List.exists_mem_of_ne_nil _ hne
  obtain ⟨d, hd, hx⟩ := List.mem_flatMap.mp hx
  exact h.tasks_ne_nil hc hd (List.ne_nil_of_mem hx)

/-- A command is a baked task. -/
theorem mem_baked {c : TaskChain} {x : Task} (hc : c ∈ r.raw.tasks) (hx : x ∈ c.tasks) :
    ∃ y ∈ (r.raw.wired first).flatten, y.id = x.id := by
  obtain ⟨k, hk⟩ := List.getElem?_of_mem hc
  obtain ⟨j, hj⟩ := List.getElem?_of_mem hx
  exact ⟨_, mem_flatten_iff_taskAt.mpr ⟨k, j, taskAt_bind first hk hj⟩, rfl⟩

end Recorder.Recorded

/-! ## Usable fences -/

/-- When `finish` returns, every fence of the buffer is bound to the completion signal
of a baked task, and an index without a task makes it panic. -/
structure Recorder.FencesUsable (r : Recorder) (first : SemId) : Prop where
  bound : ∀ baked, r.raw.finish first = .ok baked → ∀ f < r.nextFence,
    ∃ x ∈ baked.tasks, baked.fence f = some x.id
  panics : ∀ i f, (i, f) ∈ r.raw.fences → (∀ c, r.raw.tasks[i]? = some c → c.tasks = []) →
    ∃ text, r.raw.finish first = .error text

/-- A command was recorded, or no fence was created, or an index makes `finish`
panic. -/
def FencesCovered (calls : List Call) : Prop :=
  (∃ c ∈ calls, c.inner ≠ none) ∨ (∀ i, Call.createFence i ∉ calls) ∨
    (∃ i, Call.createFence i ∈ calls ∧ i ≠ 0) ∨
    ∃ d s, Call.linkChains d s ∈ calls ∧ (d ≠ 0 ∨ s ≠ 0)

namespace Recorder.Recorded

variable {r : Recorder} {closed : List TaskChain} {current : TaskChain} {first : SemId}

/-- The fences of a buffer with a command are usable. -/
theorem fencesUsable (h : r.Recorded closed current) (hn : r.next ≠ 0) :
    r.FencesUsable first where
  bound baked hb f hf := by
    obtain ⟨ht, hfence⟩ := h.baked hb
    obtain ⟨⟨i, f'⟩, hmem, rfl⟩ : ∃ p ∈ r.raw.fences, p.2 = f := by
      have hmem : f ∈ r.raw.fences.map Prod.snd := h.fences ▸ List.mem_range.mpr hf
      simpa using List.mem_map.mp hmem
    have hi := (RawCommandBuffer.inRange_of_finish hb).fences _ hmem
    have hc := List.getElem?_eq_getElem hi
    have hcm := List.mem_of_getElem? hc
    have hx := List.getLast?_eq_some_getLast (h.ne_nil_of_next hn hcm)
    obtain ⟨y, hy, hid⟩ := mem_baked hcm (List.mem_of_getLast? hx)
    exact ⟨y, ht ▸ hy, hid ▸ hfence i f' _ _ hmem hc hx⟩
  panics i f hmem hno := by
    cases hb : r.raw.finish first with
    | error text => exact ⟨text, rfl⟩
    | ok baked =>
        have hi := (RawCommandBuffer.inRange_of_finish hb).fences _ hmem
        have hc := List.getElem?_eq_getElem hi
        exact absurd (hno _ hc) (h.ne_nil_of_next hn (List.mem_of_getElem? hc))

/-- The fences of a buffer without commands are usable only if there are none, or if
`finish` panics. -/
theorem fencesUsable_empty (h : r.Recorded closed current) (hn : r.next = 0) :
    r.FencesUsable first ↔ r.raw.fences = [] ∨ ¬r.raw.InRange := by
  obtain ⟨ht, hempty⟩ := h.tasks_of_next hn
  constructor
  · intro hu
    refine or_iff_not_imp_right.mpr fun hin => List.eq_nil_iff_forall_not_mem.mpr fun p hp => ?_
    have hnodup : (r.raw.fences.map Prod.snd).Nodup := h.fences ▸ List.nodup_range
    obtain ⟨baked, hb, -⟩ := RawCommandBuffer.finish_eq (not_not.mp hin) hnodup first
    have hno : ∀ c, r.raw.tasks[p.1]? = some c → c.tasks = [] := fun c hc => by
      have hc := List.mem_of_getElem? hc
      rw [ht, List.mem_singleton] at hc
      rw [hc, hempty]
    obtain ⟨text, he⟩ := hu.panics p.1 p.2 hp hno
    cases hb.symm.trans he
  · intro hor
    have hpanics : r.raw.fences ≠ [] → ∃ text, r.raw.finish first = .error text := by
      intro hne
      cases hb : r.raw.finish first with
      | error text => exact ⟨text, rfl⟩
      | ok baked =>
          exact absurd (RawCommandBuffer.inRange_of_finish hb) (hor.resolve_left hne)
    refine ⟨fun baked hb f hf => ?_, fun i f hf _ => hpanics (List.ne_nil_of_mem hf)⟩
    have hmem : f ∈ r.raw.fences.map Prod.snd := h.fences ▸ List.mem_range.mpr hf
    obtain ⟨p, hp, -⟩ := List.mem_map.mp hmem
    obtain ⟨text, he⟩ := hpanics (List.ne_nil_of_mem hp)
    cases hb.symm.trans he

/-- The indices of a buffer with one chain are in range when they are `0`. -/
theorem inRange_of_next (h : r.Recorded closed current) (hn : r.next = 0) :
    r.raw.InRange ↔ (∀ i ∈ r.raw.fences.map Prod.fst, i = 0) ∧
      ∀ l ∈ r.raw.chainLinks, l = (0, 0) := by
  have hlen : r.raw.tasks.length = 1 := by rw [(h.tasks_of_next hn).1, List.length_singleton]
  have hlt : ∀ i, i < r.raw.tasks.length ↔ i = 0 := fun i => by rw [hlen, Nat.lt_one_iff]
  constructor
  · intro hin
    refine ⟨fun i hi => ?_, fun l hl => ?_⟩
    · obtain ⟨p, hp, rfl⟩ := List.mem_map.mp hi
      exact (hlt _).mp (hin.fences p hp)
    · exact Prod.ext ((hlt _).mp (hin.links l hl).1) ((hlt _).mp (hin.links l hl).2)
  · rintro ⟨hf, hl⟩
    refine ⟨fun p hp => (hlt _).mpr (hf _ (List.mem_map_of_mem hp)), fun l hm => ?_⟩
    rw [hl l hm, hlt]
    exact ⟨rfl, rfl⟩

end Recorder.Recorded

theorem Call.fence_eq_some {c : Call} {i : Nat} : c.fence = some i ↔ c = .createFence i := by
  cases c <;> simp [fence]

theorem Call.link_eq_some {c : Call} {l : Nat × Nat} :
    c.link = some l ↔ c = .linkChains l.1 l.2 := by
  cases c <;> simp [link, Prod.ext_iff]

theorem mem_fences {calls : List Call} {i : Nat} :
    i ∈ calls.filterMap Call.fence ↔ Call.createFence i ∈ calls := by
  simp [Call.fence_eq_some]

theorem mem_links {calls : List Call} {d s : Nat} :
    (d, s) ∈ calls.filterMap Call.link ↔ Call.linkChains d s ∈ calls := by
  simp [Call.link_eq_some]

/-- When `finish` returns, every fence that `create_fence` returned is bound to the
completion signal of a baked task, exactly if a command was recorded, or there is no
fence, or an index other than `0` makes `finish` panic. -/
theorem fences_usable (home : Bool) (calls : List Call) (r : Recorder) (first : SemId)
    (hr : (Recorder.new home).run calls = some r) :
    r.FencesUsable first ↔ FencesCovered calls := by
  obtain ⟨closed, current, h⟩ := (Recorder.Recorded.new home).run hr
  obtain ⟨hfences, hlinks, hnext⟩ := (Recorder.Recorded.new home).run_lists hr
  simp only [Recorder.new, RawCommandBuffer.new, List.map_nil, List.nil_append, Nat.zero_add]
    at hfences hlinks hnext
  have hcommand : r.next = 0 ↔ ¬∃ c ∈ calls, c.inner ≠ none := by
    simp [hnext, List.filterMap_eq_nil_iff]
  by_cases hn : r.next = 0
  · have hnone : r.raw.fences = [] ↔ ∀ i, Call.createFence i ∉ calls := by
      rw [← List.map_eq_nil_iff (f := Prod.fst), hfences, List.eq_nil_iff_forall_not_mem]
      simp only [mem_fences]
    have hrange : ¬r.raw.InRange ↔ (∃ i, Call.createFence i ∈ calls ∧ i ≠ 0) ∨
        ∃ d s, Call.linkChains d s ∈ calls ∧ (d ≠ 0 ∨ s ≠ 0) := by
      rw [h.inRange_of_next hn, hfences, hlinks, not_and_or]
      refine or_congr ?_ ?_
      · simp only [mem_fences, not_forall, exists_prop]
      · simp only [Prod.forall, mem_links, not_forall, exists_prop, Prod.mk.injEq, not_and_or]
    rw [h.fencesUsable_empty hn, hnone, hrange, FencesCovered, or_iff_right (hcommand.mp hn)]
  · exact iff_of_true (h.fencesUsable hn) (.inl (not_not.mp fun hno => hn (hcommand.mpr hno)))

/-- A fence of a buffer without commands. -/
def fenceOnly : List Call := [.createFence 0]

/-- `finish` returns, and the fence is not bound. -/
theorem fence_unbound :
    ¬∀ (calls : List Call) (r : Recorder), (Recorder.new true).run calls = some r →
      r.FencesUsable 0 := by
  intro h
  obtain ⟨r, hr⟩ : ∃ r, (Recorder.new true).run fenceOnly = some r := ⟨_, rfl⟩
  have hu := h fenceOnly r hr
  obtain rfl := Option.some.inj hr
  obtain ⟨x, hx, -⟩ := hu.bound _ rfl 0 (by decide)
  cases hx

/-- A fence may be created before the command that it waits for. -/
theorem fences_usable_early :
    ∃ r, (Recorder.new true).run [.createFence 0, .rootSync] = some r ∧ r.FencesUsable 0 :=
  ⟨_, rfl, (fences_usable true [.createFence 0, .rootSync] _ 0 rfl).mpr
    (.inl ⟨.rootSync, by decide, nofun⟩)⟩

end MVSync
