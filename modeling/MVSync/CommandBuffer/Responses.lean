import MVSync.CommandBuffer.Chains

/-!
# The controllers of a response

`BufferedCommand::response` drains the controllers of the current group, the one
of the latest root, whatever chain the command belongs to.  They are the
controllers of the chain of the command exactly when that is the chain of the
latest root, and since that root nothing was put into the group that belongs
elsewhere and nothing was taken from it by a response elsewhere
(`Intent.calm`).
-/

namespace MVSync

/-- The controllers that `BufferedCommand::response` returns. -/
def Recorder.response (r : Recorder) (p : TaskId) : Option (List TaskId) :=
  (r.consume p).bind fun r => r.raw.getControllers.map Prod.fst

namespace Intent

/-- The chain of a command. -/
def chainOf (i : Intent) (p : TaskId) : List TaskId := i.chain (i.origin[p]?.getD 0)

/-- The command belongs to the chain of the latest root. -/
def Latest (i : Intent) (p : TaskId) : Prop := i.origin[p]? = some (i.roots - 1)

instance (i : Intent) (p : TaskId) : Decidable (i.Latest p) := inferInstanceAs (Decidable (_ = _))

/-- Whether the group of the latest root is still undisturbed after a call: a
command or a response of another chain disturbs it. -/
def calmStep (i : Intent) (calm : Bool) : Call → Bool
  | .rootSync | .root => true
  | .chainSync p | .chain p | .response p => calm && decide (i.Latest p)
  | .drop _ | .linkChains _ _ | .createFence _ => calm

/-- Since the latest root, no other chain was extended and no response was taken
on another chain. -/
def calm (i : Intent) (calm : Bool) : List Call → Bool
  | [] => calm
  | c :: cs => (i.step c).calm (i.calmStep calm c) cs

theorem mem_chain {i : Intent} {k : Nat} {n : TaskId} :
    n ∈ i.chain k ↔ i.origin[n]? = some k := by
  rw [chain, List.mem_filter, List.mem_range, beq_iff_eq]
  exact ⟨And.right, fun h => ⟨(List.getElem?_eq_some_iff.mp h).1, h⟩⟩

theorem lt_of_mem_chain {i : Intent} {k : Nat} {n : TaskId} (h : n ∈ i.chain k) :
    n < i.origin.length := (List.getElem?_eq_some_iff.mp (mem_chain.mp h)).1

end Intent

/-- The controllers of a chain that was disturbed: one is missing, or one belongs
elsewhere. -/
def Disturbed (chain controllers : List TaskId) : Prop :=
  (∃ n ∈ chain, n ∉ controllers) ∨ ∃ n ∈ controllers, n ∉ chain

theorem Disturbed.ne {chain controllers : List TaskId} (h : Disturbed chain controllers) :
    controllers ≠ chain := by
  rintro rfl
  rcases h with ⟨n, hn, hn'⟩ | ⟨n, hn, hn'⟩ <;> exact hn' hn

/-- A new command does not put a disturbed chain right. -/
theorem Disturbed.append {chain controllers chain' : List TaskId} {n : TaskId}
    (h : Disturbed chain controllers) (hc : n ∉ chain) (hcs : n ∉ controllers)
    (hsub : chain ⊆ chain') (hnew : ∀ m ∈ chain', m ∈ chain ∨ m = n) :
    Disturbed chain' (controllers ++ [n]) := by
  rcases h with ⟨m, hm, hm'⟩ | ⟨m, hm, hm'⟩
  · refine .inl ⟨m, hsub hm, fun hin => ?_⟩
    rcases List.mem_append.mp hin with hin | hin
    · exact hm' hin
    · exact hc (List.mem_singleton.mp hin ▸ hm)
  · refine .inr ⟨m, List.mem_append_left _ hm, fun hin => ?_⟩
    rcases hnew m hin with hin | rfl
    · exact hm' hin
    · exact hcs hm

/-- The controllers of the current group, against the chains as the user built
them.  `root` is the latest root command. -/
structure Watched (r : Recorder) (i : Intent) (calm : Bool) (closed : List TaskChain)
    (current : TaskChain) (root : TaskId) : Prop where
  parts : r.raw.Parts closed current
  next : i.origin.length = r.next
  origins : ∀ o ∈ i.origin, o < i.roots
  live : ∀ p ∈ r.live, ∃ o, i.origin[p]? = some o
  nodup : r.live.Nodup
  /-- Every chain has at most one command that is alive. -/
  one : ∀ p ∈ r.live, ∀ q ∈ r.live, i.origin[p]? = i.origin[q]? → p = q
  older : ∀ k, k + 1 < i.roots → ∃ n ∈ i.chain k, n < root
  latest : 0 < i.roots → root ∈ i.chain (i.roots - 1)
  since : ∀ n ∈ current.controllers, root ≤ n ∧ n < r.next
  opened : current.tasks = [] → current.controllers = [] ∧ i.roots = 0
  whole : calm = true → ∀ p ∈ r.live, i.Latest p → current.controllers = i.chain (i.roots - 1)
  disturbed : calm = false → 0 < i.roots ∧ Disturbed (i.chain (i.roots - 1)) current.controllers

namespace Watched

variable {r r' : Recorder} {i : Intent} {calm : Bool} {closed closed' : List TaskChain}
  {current current' : TaskChain} {root : TaskId} {c : Call}

theorem new (home : Bool) : Watched (.new home) .new true [] .new 0 where
  parts := ⟨rfl, rfl⟩
  next := rfl
  origins := nofun
  live := nofun
  nodup := List.nodup_nil
  one := nofun
  older k hk := by simp [Intent.new] at hk
  latest h := by simp [Intent.new] at h
  since := nofun
  opened _ := ⟨rfl, rfl⟩
  whole _ := nofun
  disturbed := nofun

theorem chain_ne_nil (h : Watched r i calm closed current root) {k : Nat} (hk : k < i.roots) :
    ∃ n ∈ i.chain k, n < r.next := by
  by_cases hl : k + 1 < i.roots
  · obtain ⟨n, hn, -⟩ := h.older k hl
    exact ⟨n, hn, h.next ▸ i.lt_of_mem_chain hn⟩
  · obtain rfl : k = i.roots - 1 := by omega
    have hn := h.latest (by omega)
    exact ⟨root, hn, h.next ▸ i.lt_of_mem_chain hn⟩

/-! A new command has the number `r.next`, and is put at the end of `i.origin`. -/

theorem next_not_mem_chain (h : Watched r i calm closed current root) (k : Nat) :
    r.next ∉ i.chain k := fun hn => by
  have hlt := Intent.lt_of_mem_chain hn
  rw [h.next] at hlt
  exact Nat.lt_irrefl _ hlt

theorem next_not_mem_live (h : Watched r i calm closed current root) : r.next ∉ r.live := by
  intro hm
  obtain ⟨o, ho⟩ := h.live _ hm
  exact h.next_not_mem_chain o (Intent.mem_chain.mpr ho)

theorem chain_new (h : Watched r i calm closed current root) (roots o k : Nat) :
    Intent.chain ⟨roots, i.origin ++ [o]⟩ k = i.chain k ++ if o = k then [r.next] else [] := by
  rw [Intent.chain_append, h.next]

theorem origin_new (h : Watched r i calm closed current root) (o : Nat) :
    (i.origin ++ [o])[r.next]? = some o := by
  simp [← h.next]

theorem origin_old (h : Watched r i calm closed current root) {q : TaskId} (hq : q ∈ r.live)
    (o : Nat) : (i.origin ++ [o])[q]? = i.origin[q]? := by
  obtain ⟨o', ho'⟩ := h.live q hq
  exact List.getElem?_append_left (List.getElem?_eq_some_iff.mp ho').1

theorem origins_append (h : Watched r i calm closed current root) {o n : Nat} (ho : o < n)
    (hn : i.roots ≤ n) : ∀ o' ∈ i.origin ++ [o], o' < n := by
  intro o' ho'
  rcases List.mem_append.mp ho' with ho' | ho'
  · exact Nat.lt_of_lt_of_le (h.origins o' ho') hn
  · rwa [List.mem_singleton.mp ho']

theorem live_append (h : Watched r i calm closed current root) {l : List TaskId}
    (hl : l ⊆ r.live) (o : Nat) :
    ∀ q ∈ r.next :: l, ∃ o', (i.origin ++ [o])[q]? = some o' := by
  intro q hq
  rcases List.mem_cons.mp hq with rfl | hq
  · exact ⟨o, h.origin_new o⟩
  · exact (h.live q (hl hq)).imp fun o' ho' => (h.origin_old (hl hq) o).trans ho'

/-- The new command is the only one of its chain that is alive, if none was left. -/
theorem one_append (h : Watched r i calm closed current root) {l : List TaskId}
    (hl : l ⊆ r.live) {o : Nat} (hother : ∀ q ∈ l, i.origin[q]? ≠ some o) :
    ∀ p ∈ r.next :: l, ∀ q ∈ r.next :: l,
      (i.origin ++ [o])[p]? = (i.origin ++ [o])[q]? → p = q := by
  intro p hp q hq he
  rcases List.mem_cons.mp hp with rfl | hp <;> rcases List.mem_cons.mp hq with rfl | hq
  · rfl
  · rw [h.origin_new, h.origin_old (hl hq)] at he
    exact absurd he.symm (hother q hq)
  · rw [h.origin_new, h.origin_old (hl hp)] at he
    exact absurd he (hother p hp)
  · rw [h.origin_old (hl hp), h.origin_old (hl hq)] at he
    exact h.one p (hl hp) q (hl hq) he

/-- A root command begins a group with its own controller. -/
theorem root_step (h : Watched r i calm closed current root) (hp : r'.raw.Parts closed' current')
    (hl : r'.live = r.next :: r.live) (hn : r'.next = r.next + 1)
    (hc : current'.controllers = [r.next]) (ht : current'.tasks ≠ []) :
    Watched r' ⟨i.roots + 1, i.origin ++ [i.roots]⟩ true closed' current' r.next := by
  have hother : ∀ q ∈ r.live, i.origin[q]? ≠ some i.roots := fun q _ he =>
    Nat.lt_irrefl _ (h.origins _ (List.mem_of_getElem? he))
  have hlatest : Intent.chain ⟨i.roots + 1, i.origin ++ [i.roots]⟩ i.roots = [r.next] := by
    rw [h.chain_new, Intent.chain_eq_nil h.origins, if_pos rfl]
    rfl
  constructor
  case parts => exact hp
  case next => simp [h.next, hn]
  case origins => exact h.origins_append (Nat.lt_succ_self _) (Nat.le_succ _)
  case live => exact hl ▸ h.live_append (List.Subset.refl _) _
  case nodup => exact hl ▸ List.nodup_cons.mpr ⟨h.next_not_mem_live, h.nodup⟩
  case one => exact hl ▸ h.one_append (List.Subset.refl _) hother
  case older =>
    intro k hk
    obtain ⟨n, hn, hlt⟩ := h.chain_ne_nil (k := k) (by simpa using hk)
    exact ⟨n, h.chain_new _ _ k ▸ List.mem_append_left _ hn, hlt⟩
  case latest => simp [hlatest]
  case since =>
    intro n hm
    rw [hc] at hm
    obtain rfl := List.mem_singleton.mp hm
    exact ⟨Nat.le_refl _, hn ▸ Nat.lt_succ_self _⟩
  case opened => exact fun he => absurd he ht
  case whole =>
    intro _ _ _ _
    simpa [hc] using hlatest.symm
  case disturbed => nofun

/-- A command of chain `o` is put into the current group, which is disturbed then if it
was or if it is the group of another chain. -/
theorem chain_disturbed (h : Watched r i calm closed current root) {o : Nat}
    (hc : calm = false ∨ o ≠ i.roots - 1) :
    Disturbed (Intent.chain { i with origin := i.origin ++ [o] } (i.roots - 1))
      (current.controllers ++ [r.next]) := by
  have hchain := h.chain_new i.roots o (i.roots - 1)
  by_cases hroot : o = i.roots - 1
  · rw [if_pos hroot] at hchain
    have hcalm := hc.resolve_right fun hne => hne hroot
    rw [hchain]
    refine (h.disturbed hcalm).2.append (h.next_not_mem_chain _) (fun hn => ?_)
      (List.subset_append_left _ _) fun m hm => ?_
    · exact Nat.lt_irrefl _ (h.since _ hn).2
    · exact (List.mem_append.mp hm).imp_right List.mem_singleton.mp
  · rw [if_neg hroot, List.append_nil] at hchain
    rw [hchain]
    exact .inr ⟨r.next, List.mem_append_right _ (List.mem_singleton.mpr rfl),
      h.next_not_mem_chain _⟩

/-- A buffered command is consumed by a chained command. -/
theorem chain_step (h : Watched r i calm closed current root) {p : TaskId} (hm : p ∈ r.live)
    {b : RawCommandBuffer} {inner : Inner}
    (hp : b.Parts closed (current.addTask (r.command inner))) :
    Watched (Recorder.record { r with live := r.live.erase p } b)
      { i with origin := i.origin ++ [i.origin[p]?.getD 0] } (calm && decide (i.Latest p)) closed
      (current.addTask (r.command inner)) root := by
  obtain ⟨o, ho⟩ := h.live p hm
  have hlt : o < i.roots := h.origins o (List.mem_of_getElem? ho)
  rw [ho, Option.getD_some]
  have hsub : ∀ k, i.chain k ⊆ Intent.chain { i with origin := i.origin ++ [o] } k := fun k n hn =>
    h.chain_new _ o k ▸ List.mem_append_left _ hn
  have hctl : (current.addTask (r.command inner)).controllers = current.controllers ++ [r.next] :=
    rfl
  have hlive : r.live.erase p ⊆ r.live := List.erase_subset
  -- the chain of `p` has no other command that is alive
  have hother : ∀ q ∈ r.live.erase p, i.origin[q]? ≠ some o := fun q hq he =>
    ((List.Nodup.mem_erase_iff h.nodup).mp hq).1 (h.one q (hlive hq) p hm (he.trans ho.symm))
  constructor
  case parts => exact hp
  case next => simp [h.next, Recorder.record]
  case origins => exact h.origins_append hlt (Nat.le_refl _)
  case live => exact h.live_append hlive o
  case nodup =>
    exact List.nodup_cons.mpr ⟨fun hn => h.next_not_mem_live (hlive hn), h.nodup.erase p⟩
  case one => exact h.one_append hlive hother
  case older =>
    intro k hk
    obtain ⟨n, hn, hr⟩ := h.older k hk
    exact ⟨n, hsub k hn, hr⟩
  case latest => exact fun hr => hsub _ (h.latest hr)
  case since =>
    intro n hn
    rcases List.mem_append.mp (hctl ▸ hn) with hn | hn
    · exact ⟨(h.since n hn).1, Nat.lt_succ_of_lt (h.since n hn).2⟩
    · obtain rfl := List.mem_singleton.mp hn
      have hroot := Intent.lt_of_mem_chain (h.latest (Nat.zero_lt_of_lt hlt))
      exact ⟨Nat.le_of_lt (h.next ▸ hroot), Nat.lt_succ_self _⟩
  case opened => simp [TaskChain.addTask]
  case whole =>
    intro hc _ _ _
    obtain ⟨hc, hl⟩ := Bool.and_eq_true_iff.mp hc
    have hl : i.Latest p := of_decide_eq_true hl
    have hroot : o = i.roots - 1 := Option.some.inj (ho.symm.trans hl)
    rw [hctl, h.whole hc p hm hl, h.chain_new, if_pos hroot]
  case disturbed =>
    intro hc
    refine ⟨Nat.zero_lt_of_lt hlt, h.chain_disturbed ?_⟩
    refine (Bool.and_eq_false_iff.mp hc).imp_right fun hl => ?_
    rintro rfl
    exact of_decide_eq_false hl ho

/-- A buffered command is consumed, and nothing else happens. -/
theorem drop_step (h : Watched r i calm closed current root) (p : TaskId) :
    Watched { r with live := r.live.erase p } i calm closed current root :=
  { h with
    live := fun q hq => h.live q (List.mem_of_mem_erase hq)
    nodup := h.nodup.erase p
    one := fun q hq q' hq' => h.one q (List.mem_of_mem_erase hq) q' (List.mem_of_mem_erase hq')
    whole := fun hc q hq => h.whole hc q (List.mem_of_mem_erase hq) }

/-- A response drains the current group. -/
theorem response_step (h : Watched r i calm closed current root) {p : TaskId} (hm : p ∈ r.live)
    {b : RawCommandBuffer} (hp : b.Parts closed { current with controllers := [] }) :
    Watched { r with live := r.live.erase p, raw := b } i (calm && decide (i.Latest p)) closed
      { current with controllers := [] } root := by
  obtain ⟨o, ho⟩ := h.live p hm
  have hpos : 0 < i.roots := Nat.zero_lt_of_lt (h.origins o (List.mem_of_getElem? ho))
  refine { h.drop_step p with
    parts := hp
    since := nofun
    opened := fun ht => ⟨rfl, (h.opened ht).2⟩
    whole := fun hc q hq hlq => ?_
    disturbed := fun _ => ⟨hpos, .inl ⟨root, h.latest hpos, List.not_mem_nil⟩⟩ }
  -- the only command of the latest chain that was alive is consumed
  obtain ⟨-, hl⟩ := Bool.and_eq_true_iff.mp hc
  have hl : i.Latest p := of_decide_eq_true hl
  obtain ⟨hne, hq⟩ := (List.Nodup.mem_erase_iff h.nodup).mp hq
  exact absurd (h.one q hq p hm (hlq.trans hl.symm)) hne

/-- One recording call. -/
theorem step (h : Watched r i calm closed current root)
    (hs : RecordStep r closed current c closed' current' r') :
    ∃ root', Watched r' (i.step c) (i.calmStep calm c) closed' current' root' := by
  have hparts := hs.parts h.parts
  cases hs with
  | first hc hp he =>
      have hw := h.root_step hparts rfl rfl
        (by simp [TaskChain.addTask, (h.opened he).1, Recorder.command, Task.new])
        (by simp [TaskChain.addTask])
      rcases Call.root_of_inner hc hp with rfl | rfl <;> exact ⟨_, hw⟩
  | root hc hp =>
      have hw := h.root_step hparts rfl rfl rfl (by simp [TaskChain.addTask])
      rcases Call.root_of_inner hc hp with rfl | rfl <;> exact ⟨_, hw⟩
  | chain hc hp hm =>
      rcases Call.chain_of_inner hc hp with rfl | rfl <;> exact ⟨_, h.chain_step hm hparts⟩
  | response hm => exact ⟨_, h.response_step hm hparts⟩
  | drop => exact ⟨_, h.drop_step _⟩
  | linkChains => exact ⟨_, { h with parts := hparts }⟩
  | createFence => exact ⟨_, { h with parts := hparts }⟩

/-- A sequence of recording calls. -/
theorem run {cs : List Call} (h : Watched r i calm closed current root) (hr : r.run cs = some r') :
    ∃ closed' current' root', Watched r' (i.run cs) (i.calm calm cs) closed' current' root' := by
  induction cs generalizing r i calm closed current root with
  | nil =>
      obtain rfl := Option.some.inj hr
      exact ⟨closed, current, root, h⟩
  | cons c cs ih =>
      obtain ⟨r₁, hs, hr⟩ := Option.bind_eq_some_iff.mp hr
      obtain ⟨closed₁, current₁, hs⟩ := Recorder.step_inv h.parts hs
      obtain ⟨root₁, h₁⟩ := h.step hs
      exact ih h₁ hr

/-- The controllers of a response. -/
theorem response (h : Watched r i calm closed current root) {p : TaskId} (hm : p ∈ r.live) :
    r.response p = some (i.chainOf p) ↔ i.Latest p ∧ calm = true := by
  obtain ⟨o, ho⟩ := h.live p hm
  have hr : r.response p = some current.controllers := by
    have hp : ({ r with live := r.live.erase p } : Recorder).raw.Parts closed current := h.parts
    rw [Recorder.response, Recorder.consume, if_pos hm, Option.bind_some, hp.getControllers]
    rfl
  rw [hr, Option.some.injEq, Intent.chainOf, ho, Option.getD_some]
  constructor
  · intro he
    have hlatest : i.Latest p := by
      by_contra hne
      -- the root of an older chain is not among the controllers of the current group
      have hlt : o < i.roots := h.origins o (List.mem_of_getElem? ho)
      have hno : o ≠ i.roots - 1 := fun hor => hne (ho.trans (congrArg some hor))
      obtain ⟨n, hn, hr⟩ := h.older o (by omega)
      exact Nat.not_lt.mpr (h.since n (he ▸ hn)).1 hr
    refine ⟨hlatest, ?_⟩
    by_contra hc
    obtain rfl : o = i.roots - 1 := Option.some.inj (ho.symm.trans hlatest)
    exact (h.disturbed (Bool.eq_false_iff.mpr hc)).2.ne he
  · rintro ⟨hl, hc⟩
    obtain rfl : o = i.roots - 1 := Option.some.inj (ho.symm.trans hl)
    exact h.whole hc p hm hl

end Watched

/-- A response returns the controllers of the chain of its command exactly when
that is the chain of the latest root, and since that root no other chain was
extended and no response was taken on another chain. -/
theorem response_controllers (home : Bool) (calls : List Call) (r : Recorder) (p : TaskId)
    (hr : (Recorder.new home).run calls = some r) (hp : p ∈ r.live) :
    r.response p = some ((Intent.new.run calls).chainOf p) ↔
      (Intent.new.run calls).Latest p ∧ Intent.new.calm true calls = true := by
  obtain ⟨closed, current, root, h⟩ := (Watched.new home).run hr
  exact h.response hp

/-- Two root commands. -/
def twoRoots : List Call := [.rootSync, .rootSync]

/-- The response of the first of two roots has the controller of the second. -/
theorem response_of_other_chain :
    ¬∀ (calls : List Call) (r : Recorder) (p : TaskId), (Recorder.new true).run calls = some r →
      p ∈ r.live → r.response p = some ((Intent.new.run calls).chainOf p) := by
  intro h
  obtain ⟨r, hr⟩ : ∃ r, (Recorder.new true).run twoRoots = some r := ⟨_, rfl⟩
  obtain rfl := Option.some.inj hr
  have he := h twoRoots _ 0 rfl (by decide)
  revert he
  decide

/-- A chain that is completed before its response is taken. -/
theorem response_controllers_successive :
    ∃ r, (Recorder.new true).run [.root, .rootSync, .chainSync 1] = some r ∧
      (r.response 2 = some [1, 2] ↔
        (Intent.new.run [.root, .rootSync, .chainSync 1]).Latest 2 ∧
          Intent.new.calm true [.root, .rootSync, .chainSync 1] = true) :=
  ⟨_, rfl, response_controllers true [.root, .rootSync, .chainSync 1] _ 2 rfl (by decide)⟩

end MVSync
