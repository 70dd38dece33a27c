import MVSync.CommandBuffer.Record

/-!
# The chains of a command buffer

What the user chains is a forest: every command but the roots is chained from
another one, and belongs to the chain of that command.  `Intent` keeps this
forest.

The recorder keeps one number instead, the group of the latest root, and puts
every chained command there.  `recorded_chains` says when the two agree.
-/

namespace MVSync

/-! ## What the user chains -/

/-- The chains as the user built them: the number of root commands, and for
every command the root that it is chained from, directly or transitively. -/
structure Intent where
  roots : Nat
  origin : List Nat
deriving DecidableEq, Repr

namespace Intent

def new : Intent := ⟨0, []⟩

/-- The chain of root `k`, in chaining order. -/
def chain (i : Intent) (k : Nat) : List TaskId :=
  (List.range i.origin.length).filter fun c => i.origin[c]? == some k

/-- A command is recorded. -/
def step (i : Intent) : Call → Intent
  | .rootSync | .root => ⟨i.roots + 1, i.origin ++ [i.roots]⟩
  | .chainSync p | .chain p => { i with origin := i.origin ++ [i.origin[p]?.getD 0] }
  | .response _ | .drop _ | .linkChains _ _ | .createFence _ => i

/-- What a sequence of calls chains. -/
def run (i : Intent) : List Call → Intent
  | [] => i
  | c :: cs => (i.step c).run cs

/-- A chained command extends the chain of the latest root. -/
def Extends (i : Intent) : Call → Prop
  | .chainSync p | .chain p => i.origin[p]? = some (i.roots - 1)
  | _ => True

/-- Every chained command of a sequence of calls extends the chain of the latest
root. -/
def ExtendsAll (i : Intent) : List Call → Prop
  | [] => True
  | c :: cs => i.Extends c ∧ (i.step c).ExtendsAll cs

/-- A new command is put at the end of its chain. -/
theorem chain_append (i : Intent) (roots o k : Nat) :
    chain ⟨roots, i.origin ++ [o]⟩ k = i.chain k ++ if o = k then [i.origin.length] else [] := by
  have hold : ∀ c ∈ List.range i.origin.length,
      ((i.origin ++ [o])[c]? == some k) = (i.origin[c]? == some k) := by
    intro c hc
    rw [List.getElem?_append_left (List.mem_range.mp hc)]
  simp only [chain, List.length_append, List.length_singleton, List.range_succ,
    List.filter_append, List.filter_congr hold]
  split
  case isTrue h => simp [h]
  case isFalse h => simp [h]

/-- A root that no command has is an empty chain. -/
theorem chain_eq_nil {i : Intent} {k : Nat} (h : ∀ o ∈ i.origin, o < k) : i.chain k = [] := by
  refine List.filter_eq_nil_iff.mpr fun c _ hc => ?_
  have hmem := List.mem_of_getElem? (beq_iff_eq.mp hc)
  exact absurd (h k hmem) (Nat.lt_irrefl k)

end Intent

/-- The `i`-th chain of the buffer is the `i`-th root command, followed by the
commands chained from it, for every `i`. -/
def RawCommandBuffer.Matches (b : RawCommandBuffer) (i : Intent) : Prop :=
  ∀ k < i.roots, (b.tasks[k]?).map TaskChain.ids = some (i.chain k)

/-! ## What the recorder does -/

/-- The commands of the chains before the current group, and of that group,
which is the last one. -/
structure RawCommandBuffer.Shape (b : RawCommandBuffer) (closed : List (List TaskId))
    (current : List TaskId) : Prop where
  ids : b.tasks.map TaskChain.ids = closed ++ [current]
  group : b.group = closed.length

theorem RawCommandBuffer.Shape.parts {b : RawCommandBuffer} {closed : List (List TaskId)}
    {current : List TaskId} (h : b.Shape closed current) :
    ∃ cs c, b.Parts cs c ∧ cs.map TaskChain.ids = closed ∧ c.ids = current := by
  obtain ⟨cs, l, htasks, rfl, hl⟩ := List.map_eq_append_iff.mp h.ids
  obtain ⟨c, rfl, rfl⟩ := List.map_eq_singleton_iff.mp hl
  exact ⟨cs, c, ⟨htasks, by simpa using h.group⟩, rfl, rfl⟩

theorem RawCommandBuffer.Parts.shape {b : RawCommandBuffer} {cs : List TaskChain} {c : TaskChain}
    (h : b.Parts cs c) : b.Shape (cs.map TaskChain.ids) c.ids where
  ids := by simp [h.tasks]
  group := by simpa using h.group

/-- The recorder and the calls so far agree on the number of commands and of
chains. -/
structure Tracks (r : Recorder) (i : Intent) (closed : List (List TaskId))
    (current : List TaskId) : Prop where
  shape : r.raw.Shape closed current
  next : i.origin.length = r.next
  recorded : ∀ c ∈ closed ++ [current], ∀ n ∈ c, n < r.next
  live : ∀ p ∈ r.live, p < r.next
  origin : ∀ o ∈ i.origin, o < i.roots
  roots : current = [] ∧ closed = [] ∧ i.roots = 0 ∨ current ≠ [] ∧ i.roots = closed.length + 1

namespace Tracks

variable {r r' : Recorder} {i : Intent} {closed : List (List TaskId)} {current : List TaskId}

theorem new (home : Bool) : Tracks (.new home) .new [] [] where
  shape := ⟨rfl, rfl⟩
  next := rfl
  recorded := by simp
  live := by simp [Recorder.new]
  origin := by simp [Intent.new]
  roots := .inl ⟨rfl, rfl, rfl⟩

theorem recorded_succ (h : Tracks r i closed current) :
    ∀ c ∈ closed ++ [current], ∀ n ∈ c, n < r.next + 1 :=
  fun c hc n hn => Nat.lt_succ_of_lt (h.recorded c hc n hn)

/-- A root command begins a chain. -/
theorem root (h : Tracks r i closed current) {b : RawCommandBuffer}
    (hb : b.Shape (if current = [] then closed else closed ++ [current]) [r.next]) :
    Tracks (r.record b) ⟨i.roots + 1, i.origin ++ [i.roots]⟩
      (if current = [] then closed else closed ++ [current]) [r.next] where
  shape := hb
  next := by simp [h.next, Recorder.record]
  recorded c hc n hn := by
    have hold := h.recorded_succ
    rcases List.mem_append.mp hc with hc | hc
    · split at hc
      · exact hold c (List.mem_append_left _ hc) n hn
      · exact hold c hc n hn
    · obtain rfl := List.mem_singleton.mp hc
      obtain rfl := List.mem_singleton.mp hn
      exact Nat.lt_succ_self _
  live p hp := by
    rcases List.mem_cons.mp hp with rfl | hp
    · exact Nat.lt_succ_self _
    · exact Nat.lt_succ_of_lt (h.live p hp)
  origin o ho := by
    rcases List.mem_append.mp ho with ho | ho
    · exact Nat.lt_succ_of_lt (h.origin o ho)
    · exact List.mem_singleton.mp ho ▸ Nat.lt_succ_self _
  roots := by
    rcases h.roots with ⟨hc, hcl, hr⟩ | ⟨hc, hr⟩
    · exact .inr ⟨List.cons_ne_nil _ _, by simp [hc, hcl, hr]⟩
    · exact .inr ⟨List.cons_ne_nil _ _, by simp [hc, hr]⟩

/-- The root of a command that was recorded. -/
theorem exists_origin (h : Tracks r i closed current) {p : TaskId} (hp : p ∈ r.live) :
    ∃ o, i.origin[p]? = some o ∧ o < i.roots ∧ i.roots = closed.length + 1 := by
  have hlt : p < i.origin.length := h.next ▸ h.live p hp
  have ho : i.origin[p] < i.roots := h.origin _ (List.getElem_mem hlt)
  refine ⟨i.origin[p], List.getElem?_eq_getElem hlt, ho, ?_⟩
  rcases h.roots with ⟨-, -, hr⟩ | ⟨-, hr⟩
  · omega
  · exact hr

/-- A chained command goes to the current group. -/
theorem chained (h : Tracks r i closed current) {p : TaskId} (hp : p ∈ r.live)
    {b : RawCommandBuffer} (hb : b.Shape closed (current ++ [r.next])) :
    Tracks (Recorder.record { r with live := r.live.erase p } b)
      { i with origin := i.origin ++ [i.origin[p]?.getD 0] } closed (current ++ [r.next]) where
  shape := hb
  next := by simp [h.next, Recorder.record]
  recorded c hc n hn := by
    have hold := h.recorded_succ
    rcases List.mem_append.mp hc with hc | hc
    · exact hold c (List.mem_append_left _ hc) n hn
    · obtain rfl := List.mem_singleton.mp hc
      rcases List.mem_append.mp hn with hn | hn
      · exact hold current (List.mem_append_right _ (List.mem_singleton.mpr rfl)) n hn
      · exact List.mem_singleton.mp hn ▸ Nat.lt_succ_self _
  live q hq := by
    rcases List.mem_cons.mp hq with rfl | hq
    · exact Nat.lt_succ_self _
    · exact Nat.lt_succ_of_lt (h.live q (List.mem_of_mem_erase hq))
  origin o ho := by
    obtain ⟨o', ho', hlt, -⟩ := h.exists_origin hp
    rcases List.mem_append.mp ho with ho | ho
    · exact h.origin o ho
    · rw [ho', Option.getD_some] at ho
      exact List.mem_singleton.mp ho ▸ hlt
  roots := by
    obtain ⟨-, -, -, hr⟩ := h.exists_origin hp
    exact .inr ⟨by simp, hr⟩

/-- What one recording call does. -/
theorem step (h : Tracks r i closed current) {c : Call} (hs : r.step c = some r') :
    ((c = .root ∨ c = .rootSync) ∧ Tracks r' (i.step c)
        (if current = [] then closed else closed ++ [current]) [r.next]) ∨
      (∃ p ∈ r.live, (c = .chain p ∨ c = .chainSync p) ∧
        Tracks r' (i.step c) closed (current ++ [r.next])) ∨
      i.step c = i ∧ i.Extends c ∧ Tracks r' i closed current := by
  obtain ⟨cs, chain, hparts, rfl, rfl⟩ := h.shape.parts
  obtain ⟨cs', chain', hstep⟩ := Recorder.step_inv hparts hs
  have hshape := (hstep.parts hparts).shape
  have erase : ∀ p, Tracks { r with live := r.live.erase p } i (cs.map TaskChain.ids) chain.ids :=
    fun p => ⟨h.shape, h.next, h.recorded, fun q hq => h.live q (List.mem_of_mem_erase hq),
      h.origin, h.roots⟩
  cases hstep with
  | first hc hp he =>
      have hids : chain.ids = [] := TaskChain.ids_eq_nil.mpr he
      have hroot := h.root (by simpa [hids, Recorder.record] using hshape)
      rcases Call.root_of_inner hc hp with rfl | rfl
      · exact .inl ⟨.inr rfl, hroot⟩
      · exact .inl ⟨.inl rfl, hroot⟩
  | root hc hp he =>
      have hids : chain.ids ≠ [] := fun hn => he (TaskChain.ids_eq_nil.mp hn)
      have hroot := h.root (by simpa [hids, Recorder.record] using hshape)
      rcases Call.root_of_inner hc hp with rfl | rfl
      · exact .inl ⟨.inr rfl, hroot⟩
      · exact .inl ⟨.inl rfl, hroot⟩
  | @chain _ _ p hc hp hm =>
      have hchain := h.chained hm (by simpa [Recorder.record] using hshape)
      rcases Call.chain_of_inner hc hp with rfl | rfl
      · exact .inr (.inl ⟨p, hm, .inr rfl, hchain⟩)
      · exact .inr (.inl ⟨p, hm, .inl rfl, hchain⟩)
  | @response p =>
      have he := erase p
      exact .inr (.inr ⟨rfl, trivial, hshape, he.next, he.recorded, he.live, he.origin, he.roots⟩)
  | drop => exact .inr (.inr ⟨rfl, trivial, erase _⟩)
  | linkChains | createFence =>
      exact .inr (.inr ⟨rfl, trivial, hshape, h.next, h.recorded, h.live, h.origin, h.roots⟩)

end Tracks

/-! ## When the chains are right -/

/-- The chains so far are right. -/
def Agree (i : Intent) (closed : List (List TaskId)) (current : List TaskId) : Prop :=
  ∀ k < i.roots, (closed ++ [current])[k]? = some (i.chain k)

/-- A command is missing in the chain of its root, which is not the current one
any more. -/
def Astray (i : Intent) (closed : List (List TaskId)) : Prop :=
  ∃ k c n, closed[k]? = some c ∧ n ∈ i.chain k ∧ n ∉ c ∧ k < i.roots

section

variable {r r' : Recorder} {i : Intent} {closed : List (List TaskId)} {current : List TaskId}

theorem Tracks.matches_iff (h : Tracks r i closed current) :
    r.raw.Matches i ↔ Agree i closed current := by
  simp only [RawCommandBuffer.Matches, Agree, ← List.getElem?_map, h.shape.ids]

theorem Astray.not_agree (h : Astray i closed) : ¬Agree i closed current := by
  intro ha
  obtain ⟨k, c, n, hc, hn, hnc, hk⟩ := h
  have hlt : k < closed.length := (List.getElem?_eq_some_iff.mp hc).1
  have := ha k hk
  rw [List.getElem?_append_left hlt, hc] at this
  exact hnc (Option.some.inj this ▸ hn)

/-- What was recorded stays in its chain. -/
theorem Intent.mem_chain_step {k : Nat} {n : TaskId} (h : n ∈ i.chain k) (c : Call) :
    n ∈ (i.step c).chain k := by
  cases c with
  | rootSync | root | chainSync | chain =>
      simp only [Intent.step, Intent.chain_append]
      exact List.mem_append_left _ h
  | _ => exact h

theorem Intent.roots_le_step (i : Intent) (c : Call) : i.roots ≤ (i.step c).roots := by
  cases c <;> simp [Intent.step]

theorem Astray.mono (h : Astray i closed) (c : Call) {closed' : List (List TaskId)}
    (hc : closed <+: closed') : Astray (i.step c) closed' := by
  obtain ⟨k, d, n, hd, hn, hnd, hk⟩ := h
  obtain ⟨rest, rfl⟩ := hc
  have hlt : k < closed.length := (List.getElem?_eq_some_iff.mp hd).1
  exact ⟨k, d, n, by rw [List.getElem?_append_left hlt, hd], i.mem_chain_step hn c, hnd,
    Nat.lt_of_lt_of_le hk (i.roots_le_step c)⟩

/-- A command that is chained from another chain than the last one goes
astray. -/
theorem Tracks.astray (h : Tracks r i closed current) {p : TaskId} (hp : p ∈ r.live)
    (hne : i.origin[p]? ≠ some (i.roots - 1)) :
    Astray { i with origin := i.origin ++ [i.origin[p]?.getD 0] } closed := by
  obtain ⟨o, ho, hlt, hr⟩ := h.exists_origin hp
  have hoc : o < closed.length := by
    have : o ≠ i.roots - 1 := fun he => hne (he ▸ ho)
    omega
  refine ⟨o, closed[o], r.next, List.getElem?_eq_getElem hoc, ?_, fun hn => ?_, hlt⟩
  · rw [Intent.chain_append, ho, ← h.next]
    simp
  · have := h.recorded _ (List.mem_append_left _ (List.getElem_mem hoc)) _ hn
    exact Nat.lt_irrefl _ this

theorem Agree.root (h : Agree i closed current) (ht : Tracks r i closed current) :
    Agree ⟨i.roots + 1, i.origin ++ [i.roots]⟩
      (if current = [] then closed else closed ++ [current]) [r.next] := by
  have hlen : (if current = [] then closed else closed ++ [current]).length = i.roots := by
    rcases ht.roots with ⟨hc, hcl, hr⟩ | ⟨hc, hr⟩
    · simp [hc, hcl, hr]
    · simp [hc, hr]
  intro k hk
  rw [Intent.chain_append]
  rcases Nat.lt_succ_iff_lt_or_eq.mp hk with hk | rfl
  · have hpos : current ≠ [] := by
      rcases ht.roots with ⟨-, -, hr⟩ | ⟨hc, -⟩
      · omega
      · exact hc
    rw [List.getElem?_append_left (hlen.symm ▸ hk), if_neg hpos, if_neg (by omega),
      List.append_nil]
    exact h k hk
  · rw [List.getElem?_append_right (Nat.le_of_eq hlen), hlen, Intent.chain_eq_nil ht.origin,
      if_pos rfl, ht.next]
    simp

theorem Agree.chained (h : Agree i closed current) (ht : Tracks r i closed current) {p : TaskId}
    (hp : p ∈ r.live) (hext : i.origin[p]? = some (i.roots - 1)) :
    Agree { i with origin := i.origin ++ [i.origin[p]?.getD 0] } closed (current ++ [r.next]) := by
  obtain ⟨-, -, -, hr⟩ := ht.exists_origin hp
  intro k hk
  rw [Intent.chain_append, hext, Option.getD_some]
  have hold := h k hk
  by_cases hlast : k = i.roots - 1
  · have hkc : k = closed.length := by omega
    subst hkc
    rw [List.getElem?_append_right (Nat.le_refl _), Nat.sub_self] at hold ⊢
    rw [if_pos hlast.symm, ht.next, ← Option.some.inj hold]
    rfl
  · have hkc : k < closed.length := by
      have : k < i.roots := hk
      omega
    rw [List.getElem?_append_left hkc] at hold ⊢
    rw [if_neg (Ne.symm hlast), List.append_nil, hold]

/-- One recording call keeps the chains right if it extends the latest one, and
puts a command astray otherwise. -/
theorem Tracks.verdict (h : Tracks r i closed current) {c : Call} (hs : r.step c = some r') :
    ∃ closed' current', Tracks r' (i.step c) closed' current' ∧ closed <+: closed' ∧
      (i.Extends c → Agree i closed current → Agree (i.step c) closed' current') ∧
        (¬i.Extends c → Astray (i.step c) closed') := by
  rcases h.step hs with ⟨hc, ht⟩ | ⟨p, hp, hc, ht⟩ | ⟨hc, hext, ht⟩
  · refine ⟨_, _, ht, ?_, ?_⟩
    · split
      · exact List.prefix_rfl
      · exact List.prefix_append _ _
    · rcases hc with rfl | rfl <;> exact ⟨fun _ ha => ha.root h, fun hn => absurd trivial hn⟩
  · refine ⟨_, _, ht, List.prefix_rfl, ?_⟩
    rcases hc with rfl | rfl <;> exact ⟨fun he ha => ha.chained h hp he, h.astray hp⟩
  · rw [hc]
    exact ⟨_, _, ht, List.prefix_rfl, fun _ ha => ha, fun hn => absurd hext hn⟩

theorem Astray.run {cs : List Call} (h : Astray i closed) (ht : Tracks r i closed current)
    (hr : r.run cs = some r') :
    ∃ closed' current', Tracks r' (i.run cs) closed' current' ∧ Astray (i.run cs) closed' := by
  induction cs generalizing r i closed current with
  | nil =>
      obtain rfl := Option.some.inj hr
      exact ⟨closed, current, ht, h⟩
  | cons c cs ih =>
      obtain ⟨r₁, hs, hr⟩ := Option.bind_eq_some_iff.mp hr
      obtain ⟨closed', current', ht', hpre, -, -⟩ := ht.verdict hs
      exact ih (h.mono c hpre) ht' hr

/-- The chains are right after a sequence of calls exactly when every chained
command extended the latest chain. -/
theorem Tracks.run {cs : List Call} (h : Tracks r i closed current) (ha : Agree i closed current)
    (hr : r.run cs = some r') :
    ∃ closed' current', Tracks r' (i.run cs) closed' current' ∧
      (Agree (i.run cs) closed' current' ↔ i.ExtendsAll cs) := by
  induction cs generalizing r i closed current with
  | nil =>
      obtain rfl := Option.some.inj hr
      exact ⟨closed, current, h, iff_of_true ha trivial⟩
  | cons c cs ih =>
      obtain ⟨r₁, hs, hr⟩ := Option.bind_eq_some_iff.mp hr
      obtain ⟨closed', current', ht', -, hgood, hbad⟩ := h.verdict hs
      by_cases hc : i.Extends c
      · obtain ⟨closed₂, current₂, ht₂, hiff⟩ := ih ht' (hgood hc ha) hr
        exact ⟨closed₂, current₂, ht₂, hiff.trans ⟨fun he => ⟨hc, he⟩, And.right⟩⟩
      · obtain ⟨closed₂, current₂, ht₂, hast⟩ := (hbad hc).run ht' hr
        exact ⟨closed₂, current₂, ht₂, iff_of_false hast.not_agree fun he => hc he.1⟩

end

/-- The chains of a recorded buffer are the ones that the user built exactly
when every chained command extended the chain of the latest root. -/
theorem recorded_chains (home : Bool) (calls : List Call) (r : Recorder)
    (h : (Recorder.new home).run calls = some r) :
    r.raw.Matches (Intent.new.run calls) ↔ Intent.new.ExtendsAll calls := by
  have ha : Agree .new [] [] := by
    intro k hk
    exact absurd hk (Nat.not_lt_zero k)
  obtain ⟨closed, current, ht, hiff⟩ := (Tracks.new home).run ha h
  exact ht.matches_iff.trans hiff

/-- Two root commands, and a command chained to the first one. -/
def interleavedCalls : List Call := [.rootSync, .rootSync, .chainSync 0]

/-- The chained command is put into the chain of the second root. -/
theorem chains_mixed_up :
    ¬∀ (calls : List Call) (r : Recorder), (Recorder.new true).run calls = some r →
      r.raw.Matches (Intent.new.run calls) := by
  intro h
  obtain ⟨r, hr⟩ : ∃ r, (Recorder.new true).run interleavedCalls = some r := ⟨_, rfl⟩
  have hm := h interleavedCalls r hr 0 (by decide)
  obtain rfl := Option.some.inj hr
  revert hm
  decide

/-- A chain that is completed before the next root is as the user built it. -/
theorem recorded_chains_successive :
    ∃ r, (Recorder.new true).run [.rootSync, .chainSync 0, .root, .chain 2] = some r ∧
      r.raw.Matches (Intent.new.run [.rootSync, .chainSync 0, .root, .chain 2]) :=
  ⟨_, rfl, (recorded_chains true _ _ rfl).mpr ⟨trivial, rfl, trivial, rfl, trivial⟩⟩

end MVSync
