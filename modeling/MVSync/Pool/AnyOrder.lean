import MVSync.Pool.Fates
import MVSync.Pool.Threads

/-!
# `run_all` on any order of its list

What the passes of `run_all` do to a list of tasks in all of its orders.  The dependencies
of the tasks are acyclic, so some task that is left depends on none of the others, and
every pass settles one at least.  The invariant says of the tasks that are left that
they are as they were, and of the others that they ended in one of their ways.
-/

namespace MVSync

open Concurrency

variable {V P : Type} {prog : Program V P} {e : CallerId} {m : Shared V P} {t u p : TaskId}
  {ts : List TaskId} {ops : List (Op V P)}

namespace RunAll

/-! ## The order of the bodies -/

/-- The tasks that `t` waits for are settled: its predecessor, and for every semaphore that was
not signalled before the first task that signals it. -/
def Served (prog : Program V P) (m : Shared V P) (ts : List TaskId) (log : List (Op V P))
    (t : TaskId) : Prop :=
  (∀ p ∈ ts, prog.pred t = some p → Done log p) ∧
    ∀ s ∈ prog.wait t, m.sem s = false → ∃ u ∈ ts, s ∈ prog.semaphores u ∧ Done log u

/-- A body runs after the tasks that its task waits for. -/
def InOrder (prog : Program V P) (m : Shared V P) (ts : List TaskId) (log : List (Op V P)) : Prop :=
  ∀ before t v after, log = before ++ .invoke t v :: after → Served prog m ts before t

section

variable {log log' : List (Op V P)}

theorem Done.mono (h : Done log t) (hl : log ⊆ log') : Done log' t := by
  obtain ⟨home, site, hm⟩ := h
  exact ⟨home, site, hl hm⟩

theorem Served.mono (h : Served prog m ts log t) (hl : log ⊆ log') : Served prog m ts log' t := by
  refine ⟨fun p hpt hp => (h.1 p hpt hp).mono hl, fun s hs hsem => ?_⟩
  obtain ⟨u, hu, hsu, hd⟩ := h.2 s hs hsem
  exact ⟨u, hu, hsu, hd.mono hl⟩

/-- The operations of a turn whose task is served. -/
theorem InOrder.append (h : InOrder prog m ts log)
    (hs : ∀ t v, Op.invoke t v ∈ ops → Served prog m ts log t) :
    InOrder prog m ts (log ++ ops) := by
  intro before t v after he
  rcases List.append_eq_append_iff.mp he with ⟨mid, rfl, hops⟩ | ⟨mid, hlog, hops⟩
  · exact (hs t v (by simp [hops])).mono (List.subset_append_left _ _)
  · cases mid with
    | nil =>
        rw [List.append_nil] at hlog
        rw [List.nil_append] at hops
        rw [← hlog]
        exact hs t v (hops ▸ List.mem_cons_self)
    | cons o mid =>
        obtain ⟨rfl, rfl⟩ := List.cons.inj hops
        exact h before t v mid hlog

end

/-! ## The invariant -/

/-- What holds when the tasks `left` of the list are left. -/
structure Inv (prog : Program V P) (m : Shared V P) (ts left : List TaskId) (r : Trace V P) :
    Prop where
  nodup : left.Nodup
  mem : ∀ t ∈ left, t ∈ ts
  fresh : ∀ t ∈ left, r.mem.cell t = m.cell t
  outside : ∀ p ∉ ts, (r.mem.cell p).state = (m.cell p).state
  settled : ∀ t ∈ ts, t ∉ left → ∃ f, Ends prog m ts t f ∧ (r.mem.cell t).state = f.state ∧
    (r.mem.cell t).invoked.length = f.runs
  /-- A predecessor that is decided, and whose result is still there. -/
  given : ∀ t ∈ left, ∀ p, prog.pred t = some p → p ∉ left → ∃ f, Ends prog m ts p f ∧
    ((r.mem.cell p).state.take = f.state) ∧
      ∀ v, f = .returned v → (r.mem.cell p).buffer = some v ∧ (r.mem.cell p).signal.ready = true
  sem : ∀ s, r.mem.sem s = true ↔ m.sem s = true ∨ ∃ u ∈ ts, u ∉ left ∧ s ∈ prog.semaphores u
  done : ∀ t ∈ ts, t ∉ left → Done r.log t
  ordered : InOrder prog m ts r.log

variable {left : List TaskId} {r r' : Trace V P}

theorem Given.inv (h : Given prog m ts) (hu : Untaken prog m ts) : Inv prog m ts ts ⟨m, []⟩ where
  nodup := h.nodup
  mem _ ht := ht
  fresh _ _ := rfl
  outside _ _ := rfl
  settled t ht hn := absurd ht hn
  given t ht p hp hpt := by
    cases hs : (m.cell p).state with
    | pending => exact absurd hs ((h.decided t ht p hp).resolve_left hpt)
    | ready =>
        obtain ⟨v, hv⟩ := Option.ne_none_iff_exists'.mp (h.result t ht p hp hpt hs)
        refine ⟨.returned v, .wasReady hpt hs hv, rfl, ?_⟩
        rintro w ⟨⟩
        exact ⟨hv, hu t ht p hp hpt hs⟩
    | panicked q => exact ⟨.panicked, .wasPanicked hpt hs, rfl, by simp⟩
    | cancelled => exact ⟨.cancelled, .wasCancelled hpt hs, rfl, by simp⟩
  sem s := by
    refine ⟨.inl, ?_⟩
    rintro (hs | ⟨u, hu, hn, -⟩)
    · exact hs
    · exact absurd hu hn
  done t ht hn := absurd ht hn
  ordered before t v after he := by simp at he

namespace Inv

theorem perm {left' : List TaskId} (h : Inv prog m ts left r) (hp : left.Perm left') :
    Inv prog m ts left' r where
  nodup := hp.nodup_iff.mp h.nodup
  mem t ht := h.mem t (hp.mem_iff.mpr ht)
  fresh t ht := h.fresh t (hp.mem_iff.mpr ht)
  outside := h.outside
  settled t ht hn := h.settled t ht fun hl => hn (hp.mem_iff.mp hl)
  given t ht p hpred hn := h.given t (hp.mem_iff.mpr ht) p hpred fun hl => hn (hp.mem_iff.mp hl)
  sem s := by
    rw [h.sem]
    simp only [hp.mem_iff]
  done t ht hn := h.done t ht fun hl => hn (hp.mem_iff.mp hl)
  ordered := h.ordered

/-- A task that is left has the state that it had. -/
theorem state_of_mem (h : Inv prog m ts left r) (hg : Given prog m ts) (ht : t ∈ left) :
    (r.mem.cell t).state = .pending ∨ (r.mem.cell t).state = .cancelled := by
  rw [h.fresh t ht]
  exact (hg.fresh t (h.mem t ht)).1

/-- A predecessor that is neither pending nor cancelled is not left. -/
theorem given_of_state (h : Inv prog m ts left r) (hg : Given prog m ts) (ht : t ∈ left)
    (hp : prog.pred t = some p) (hs : (r.mem.cell p).state ≠ .pending)
    (hc : (r.mem.cell p).state ≠ .cancelled) : p ∉ left ∧ ∃ f, Ends prog m ts p f ∧
      (r.mem.cell p).state.take = f.state ∧ ∀ v, f = .returned v →
        (r.mem.cell p).buffer = some v ∧ (r.mem.cell p).signal.ready = true := by
  have hn : p ∉ left := fun hpl => (h.state_of_mem hg hpl).elim hs hc
  exact ⟨hn, h.given t ht p hp hn⟩

/-- What a turn decides is one of the ways in which the task can end. -/
theorem ends (h : Inv prog m ts left r) (hg : Given prog m ts) (ht : t ∈ left) {f : Fate V}
    (hc : Cause prog r.mem (prog.task t) f) : Ends prog m ts t f := by
  have hts : t ∈ ts := h.mem t ht
  cases hc with
  | @panicked p q hp hq =>
      obtain ⟨-, f, hf, hst, -⟩ := h.given_of_state hg ht hp (by simp [hq]) (by simp [hq])
      rw [hq] at hst
      cases f with
      | panicked => exact .inheritsPanicked hts hp hf
      | _ => cases hst
  | cancelled hnp hc =>
      rcases Bool.or_eq_true_iff.mp hc with hpc | hself
      · rw [TaskState.beq_cancelled] at hpc
        cases hp : prog.pred t with
        | none =>
            rw [predState_of_none (x := prog.task t) hp] at hpc
            cases hpc
        | some p =>
            rw [predState_of_some (x := prog.task t) hp] at hpc
            by_cases hpl : p ∈ left
            · rw [h.fresh p hpl] at hpc
              exact .early hts hp (h.mem p hpl) hpc
            · obtain ⟨f, hf, hst, -⟩ := h.given t ht p hp hpl
              rw [hpc] at hst
              cases f with
              | cancelled => exact .inheritsCancelled hts hp hf
              | _ => cases hst
      · rw [TaskState.beq_cancelled] at hself
        refine .cancelled hts ?_ fun p hp hpt q hq => ?_
        · rw [← h.fresh t ht]
          exact hself
        · rw [← h.outside p hpt] at hq
          rw [Shared.isPanicked, predState_of_some (x := prog.task t) hp, hq] at hnp
          cases hnp
  | @returned v y hc he hv hr =>
      have hself : (m.cell t).state ≠ .cancelled := by
        rw [← h.fresh t ht]
        exact hc
      cases hv with
      | none hp => exact .root hts hself hp hr
      | @some p w hp hne hflag hs hb =>
          obtain ⟨-, f, hf, hst, hres⟩ := h.given_of_state hg ht hp (by simp [hs]) (by simp [hs])
          rw [hs] at hst
          cases f with
          | returned w' =>
              obtain rfl := Option.some.inj (hb.symm.trans (hres w' rfl).1)
              exact .next hts hself hp hf hr
          | _ => cases hst

/-- A task that is executed is served. -/
theorem served (h : Inv prog m ts left r) (hg : Given prog m ts)
    (hc : r.mem.isCancelled (prog.task t) = false) (he : r.mem.canExecute (prog.task t) = true) :
    Served prog m ts r.log t := by
  obtain ⟨hsems, hpend⟩ := Bool.and_eq_true_iff.mp he
  obtain ⟨hcancel, -⟩ := Bool.or_eq_false_iff.mp hc
  refine ⟨fun p hpt hp => ?_, fun s hs hsem => ?_⟩
  · rw [predState_of_some (x := prog.task t) hp] at hpend hcancel
    refine h.done p hpt fun hpl => ?_
    rcases h.state_of_mem hg hpl with hs | hs
    · exact TaskState.bne_pending.mp hpend hs
    · rw [hs] at hcancel
      cases hcancel
  · have hup : r.mem.sem s = true := List.all_eq_true.mp hsems s hs
    rcases (h.sem s).mp hup with hm | ⟨u, hu, hul, hsu⟩
    · simp [hsem] at hm
    · exact ⟨u, hu, hsu, h.done u hu hul⟩

/-- A turn that settles a task keeps the invariant. -/
theorem settle (h : Inv prog m ts (t :: left) r) (hg : Given prog m ts)
    (hturn : turn prog e r.mem (prog.task t) = .ok (some ops)) :
    Inv prog m ts left (r.perform ops) := by
  obtain ⟨hnot, hnodup⟩ := List.nodup_cons.mp h.nodup
  have hmem : t ∈ t :: left := List.mem_cons_self
  have hx : (prog.task t).inner.predecessor ≠ some (prog.task t).id :=
    fun hp => absurd (prog.predecessor_lt t t hp) (Nat.lt_irrefl t)
  obtain ⟨f, hcause, heff, hdone, hinvoke⟩ := turn_settled hx hturn
  have hends := h.ends hg hmem hcause
  have hne : ∀ {u}, u ∈ left → u ≠ t := fun hu he => hnot (he ▸ hu)
  have hcons : ∀ {u}, u ≠ t → u ∉ left → u ∉ t :: left := fun hu hl => by simp [hu, hl]
  constructor
  · exact hnodup
  · exact fun u hu => h.mem u (List.mem_cons_of_mem t hu)
  · intro u hu
    refine (heff.frame u (hne hu) fun hp v he => ?_).trans (h.fresh u (List.mem_cons_of_mem t hu))
    -- the predecessor of a task that is executed is not left
    subst he
    cases hcause with
    | returned hc he hv hr =>
        cases hv with
        | none hp' => simp [hp] at hp'
        | some hp' _ _ hs =>
            obtain rfl := Option.some.inj (hp.symm.trans hp')
            rcases h.state_of_mem hg (List.mem_cons_of_mem t hu) with hst | hst <;> simp [hs] at hst
  · intro p hp
    rw [← h.outside p hp]
    exact (heff.keeps p fun he => hp (he ▸ h.mem t hmem)).1
  · intro u hu hul
    by_cases hut : u = t
    · subst hut
      refine ⟨f, hends, heff.state, heff.invoked.trans ?_⟩
      rw [show r.mem.cell (prog.task u).id = m.cell u from h.fresh u hmem,
        (hg.fresh u hu).2, List.length_nil, Nat.zero_add]
    · obtain ⟨f', hf', hs', hi'⟩ := h.settled u hu (hcons hut hul)
      obtain ⟨hs, hi⟩ := heff.keeps u hut
      exact ⟨f', hf', hs.trans hs', (congrArg List.length hi).trans hi'⟩
  · intro u hu p hp hpl
    by_cases hpt : p = t
    · subst hpt
      refine ⟨f, hends, ?_, fun v hv => ⟨heff.result v hv, heff.signal⟩⟩
      rw [show ((r.perform ops).mem.cell p).state = f.state from heff.state]
      cases f <;> rfl
    · have hcell : (r.perform ops).mem.cell p = r.mem.cell p :=
        heff.frame p hpt fun hp' => absurd (Program.pred_unique hp hp') (hne hu)
      rw [hcell]
      exact h.given u (List.mem_cons_of_mem t hu) p hp (hcons hpt hpl)
  · intro s
    refine (heff.sem s).trans ((or_congr_left (h.sem s)).trans ?_)
    constructor
    · rintro ((hs | ⟨u, hu, hul, hsu⟩) | hs)
      · exact .inl hs
      · exact .inr ⟨u, hu, fun hl => hul (List.mem_cons_of_mem t hl), hsu⟩
      · exact .inr ⟨t, h.mem t hmem, hnot, hs⟩
    · rintro (hs | ⟨u, hu, hul, hsu⟩)
      · exact .inl (.inl hs)
      · by_cases hut : u = t
        · exact .inr (hut ▸ hsu)
        · exact .inl (.inr ⟨u, hu, hcons hut hul, hsu⟩)
  · intro u hu hul
    by_cases hut : u = t
    · exact hut ▸ hdone.mono (List.subset_append_right _ _)
    · exact (h.done u hu (hcons hut hul)).mono (List.subset_append_left _ _)
  · refine h.ordered.append fun u v hm => ?_
    obtain ⟨rfl, hc, he⟩ := hinvoke u v hm
    exact h.served hg hc he

/-- A turn on a task that is left ends. -/
theorem turn_ok (h : Inv prog m ts left r) (hg : Given prog m ts) (ht : t ∈ left) (e : CallerId) :
    ∃ o, turn prog e r.mem (prog.task t) = .ok o := by
  refine RunAll.turn_ok (hg.returns t (h.mem t ht)) fun p hp hs => ?_
  obtain ⟨-, f, -, hst, hres⟩ := h.given_of_state hg ht hp (by simp [hs]) (by simp [hs])
  rw [hs] at hst
  cases f with
  | returned v =>
      obtain ⟨hb, hflag⟩ := hres v rfl
      exact ⟨Nat.ne_of_lt (prog.predecessor_lt t p hp), hflag, by simp [hb]⟩
  | _ => cases hst

/-- Some task that is left is settled by a turn. -/
theorem progress (h : Inv prog m ts left r) (hg : Given prog m ts) (hl : left ≠ [])
    (e : CallerId) : ∃ t ∈ left, turn prog e r.mem (prog.task t) ≠ .ok none := by
  obtain ⟨t, ht, hfirst⟩ := Rounds.exists_first hg.acyclic hl
  have hts : t ∈ ts := h.mem t ht
  have hnot : ∀ u ∈ left, ¬Depends prog m ts t u := fun u hu hd => hfirst u hu (.single hd)
  refine ⟨t, ht, fun hkeep => ?_⟩
  obtain ⟨-, -, hexec⟩ := turn_kept hkeep
  refine Bool.eq_false_iff.mp hexec (Bool.and_eq_true_iff.mpr ⟨?_, ?_⟩)
  · -- the tasks that signal its semaphores are settled
    refine List.all_eq_true.mpr fun s hs => (h.sem s).mpr ?_
    cases hsem : m.sem s with
    | true => exact .inl rfl
    | false =>
        obtain ⟨u, hu, hsu⟩ := (hg.signalled t hts s hs).resolve_left (by simp [hsem])
        exact .inr ⟨u, hu, fun hul => hnot u hul ⟨hts, hu, .inr ⟨s, hs, hsem, hsu⟩⟩, hsu⟩
  · -- and its predecessor is
    rw [TaskState.bne_pending]
    cases hp : prog.pred t with
    | none => simp [predState_of_none (x := prog.task t) hp]
    | some p =>
        rw [predState_of_some (x := prog.task t) hp]
        have hpl : p ∉ left := fun hpl => hnot p hpl ⟨hts, h.mem p hpl, .inl hp⟩
        obtain ⟨f, -, hst, -⟩ := h.given t ht p hp hpl
        intro hs
        rw [hs] at hst
        cases f <;> cases hst

end Inv

/-- The invariant carries `run_all` to its end. -/
theorem sound (hg : Given prog m ts) (e : CallerId) :
    Rounds.Sound (fun r t => step prog e r (prog.task t)) (Inv prog m ts) where
  perm hp h := h.perm hp
  step := by
    intro t left r h
    obtain ⟨o, ho⟩ := h.turn_ok hg List.mem_cons_self e
    cases o with
    | none => exact .inl (by simp [step, ho, Except.map])
    | some ops => exact .inr ⟨r.perform ops, by simp [step, ho, Except.map], h.settle hg ho⟩
  progress := by
    intro left r hl h
    obtain ⟨t, ht, hne⟩ := h.progress hg hl e
    refine ⟨t, ht, fun hkeep => hne ?_⟩
    cases ho : turn prog e r.mem (prog.task t) with
    | error q => simp [step, ho, Except.map] at hkeep
    | ok o =>
        cases o with
        | none => rfl
        | some ops => simp [step, ho, Except.map] at hkeep

/-! ## Every order -/

/-- What `run_all` has done when its list is empty. -/
structure Completed (prog : Program V P) (m : Shared V P) (ts : List TaskId) (r : Trace V P) :
    Prop where
  decided : ∀ t ∈ ts, (r.mem.cell t).state ≠ .pending
  once : ∀ t ∈ ts, (m.cell t).state ≠ .cancelled →
    (∀ p, prog.pred t = some p → (r.mem.cell p).state = .ready) →
      (r.mem.cell t).state = .ready ∧ (r.mem.cell t).invoked.length = 1
  ordered : InOrder prog m ts r.log

theorem Fate.state_ne_pending (f : Fate V) : (f.state : TaskState P) ≠ .pending := by
  cases f <;> simp [Fate.state]

/-- A predecessor that is `Ready` at the end returned. -/
theorem Inv.exists_returned (h : Inv prog m ts [] r) (hg : Given prog m ts) (ht : t ∈ ts)
    (hp : prog.pred t = some p) (hs : (r.mem.cell p).state = .ready) :
    ∃ v, Ends prog m ts p (.returned v) := by
  by_cases hpt : p ∈ ts
  · obtain ⟨f, hf, hst, -⟩ := h.settled p hpt List.not_mem_nil
    rw [hs] at hst
    cases f with
    | returned v => exact ⟨v, hf⟩
    | _ => cases hst
  · rw [h.outside p hpt] at hs
    obtain ⟨v, hv⟩ := Option.ne_none_iff_exists'.mp (hg.result t ht p hp hpt hs)
    exact ⟨v, .wasReady hpt hs hv⟩

theorem Inv.completed (h : Inv prog m ts [] r) (hg : Given prog m ts) : Completed prog m ts r where
  decided t ht := by
    obtain ⟨f, -, hs, -⟩ := h.settled t ht List.not_mem_nil
    exact hs ▸ f.state_ne_pending
  once t ht hc hready := by
    have hreturned : ∃ y, Ends prog m ts t (.returned y) := by
      cases hp : prog.pred t with
      | none =>
          obtain ⟨y, hy⟩ := hg.returns t ht none
          exact ⟨y, .root ht hc hp hy⟩
      | some p =>
          obtain ⟨v, hv⟩ := h.exists_returned hg ht hp (hready p hp)
          obtain ⟨y, hy⟩ := hg.returns t ht (some v)
          exact ⟨y, .next ht hc hp hv hy⟩
    obtain ⟨y, hy⟩ := hreturned
    obtain ⟨f, hf, hs, hi⟩ := h.settled t ht List.not_mem_nil
    obtain rfl := hy.returned_unique hf
    exact ⟨hs, hi⟩
  ordered := h.ordered

/-- `run_all` gets to the end of every order of the list. -/
theorem Given.passes (hg : Given prog m ts) (hu : Untaken prog m ts) (e : CallerId)
    {l : List TaskId} (hl : l.Perm ts) :
    ∃ r, RunAll.passes prog e ts.length (l.map prog.task) m = .ok ([], r) ∧
      Rounds.rounds (fun r t => step prog e r (prog.task t)) ts.length l ⟨m, []⟩ = .ok ([], r) ∧
      Inv prog m ts [] r := by
  obtain ⟨r, hr, hi⟩ := (sound hg e).rounds ((hg.inv hu).perm hl.symm) (Nat.le_of_eq hl.length_eq)
  refine ⟨r, ?_, hr, hi⟩
  rw [RunAll.passes, Rounds.rounds_map, hr]
  rfl

/-- Two orders in which a task that is not contested ends. -/
theorem Inv.state_eq (h : Inv prog m ts [] r) (h' : Inv prog m ts [] r') (ht : t ∈ ts)
    (hn : ¬Contested prog m ts t) : (r.mem.cell t).state = (r'.mem.cell t).state := by
  obtain ⟨f, hf, hs, -⟩ := h.settled t ht List.not_mem_nil
  obtain ⟨f', hf', hs', -⟩ := h'.settled t ht List.not_mem_nil
  rw [hs, hs', hf.unique ht hn hf']

/-- The state in which a task ends does not depend on the order of the list. -/
def OrderFree (prog : Program V P) (e : CallerId) (m : Shared V P) (ts : List TaskId)
    (t : TaskId) : Prop :=
  ∀ l l' : List TaskId, l.Perm ts → l'.Perm ts → ∀ r r',
    passes prog e ts.length (l.map prog.task) m = .ok ([], r) →
    passes prog e ts.length (l'.map prog.task) m = .ok ([], r') →
      (r.mem.cell t).state = (r'.mem.cell t).state

theorem Given.orderFree (hg : Given prog m ts) (hu : Untaken prog m ts) (ht : t ∈ ts)
    (hn : ¬Contested prog m ts t) : OrderFree prog e m ts t := by
  intro l l' hl hl' r r' hr hr'
  obtain ⟨r₁, hr₁, -, hi⟩ := hg.passes hu e hl
  obtain ⟨r₂, hr₂, -, hi'⟩ := hg.passes hu e hl'
  obtain ⟨-, rfl⟩ := Prod.mk.inj (Except.ok.inj (hr.symm.trans hr₁))
  obtain ⟨-, rfl⟩ := Prod.mk.inj (Except.ok.inj (hr'.symm.trans hr₂))
  exact hi.state_eq hi' ht hn

/-- `run_all` gets through every order of its list, and a task that is not contested ends
alike in all orders. -/
theorem run_all_in_any_order (e : CallerId) (m : Shared V P) (ts : List TaskId)
    (hg : Given prog m ts) (hu : Untaken prog m ts) :
    (∀ l : List TaskId, l.Perm ts → ∃ r,
      passes prog e ts.length (l.map prog.task) m = .ok ([], r) ∧ Completed prog m ts r) ∧
    ∀ t ∈ ts, ¬Contested prog m ts t → OrderFree prog e m ts t := by
  refine ⟨fun l hl => ?_, fun t ht hn => hg.orderFree hu ht hn⟩
  obtain ⟨r, hr, -, hi⟩ := hg.passes hu e hl
  exact ⟨r, hr, hi.completed hg⟩

/-! ## A list with both -/

/-- Every task that signals a semaphore is settled before a body that waits for it. -/
def StrictlyInOrder (prog : Program V P) (m : Shared V P) (ts : List TaskId)
    (log : List (Op V P)) : Prop :=
  ∀ before t v after, log = before ++ .invoke t v :: after →
    ∀ u, Depends prog m ts t u → Done before u

/-- The chain `0`, `1`, `2`, and the functions `3` and `4`, which signal a semaphore that the
function `5` waits for. -/
def mixed : Program Nat Nat :=
  { Program.chain false 2 fun _ _ => .ok 5 with
    wait := fun t => if t = 5 then [0] else []
    semaphores := fun t => if t = 3 ∨ t = 4 then [0] else [] }

/-- The function `0` has returned, and somebody has waited for it. -/
def takenMemory : Shared Nat Nat :=
  (Shared.init ⟨0, 1, []⟩).modify 0 fun c => { c with state := .ready, buffer := some 5 }

/-- The function `0` has panicked in another pool, and `2` was cancelled. -/
def mixedMemory : Shared Nat Nat :=
  ((Shared.init ⟨0, 1, []⟩).modify 0 fun c =>
    { c with state := .panicked .unit, signal := c.signal.wake.1 }).modify 2 fun c =>
      { c with state := .cancelled, cancelled := true }

theorem acyclic_of_lt (h : ∀ t u, Depends prog m ts t u → u < t) (t : TaskId) :
    ¬Relation.TransGen (Depends prog m ts) t t := by
  have hlt : ∀ u, Relation.TransGen (Depends prog m ts) t u → u < t := by
    intro u hu
    induction hu with
    | single hd => exact h _ _ hd
    | tail _ hd ih => exact Nat.lt_trans (h _ _ hd) ih
  exact fun ht => Nat.lt_irrefl t (hlt t ht)

theorem mixed_pred (h : mixed.pred t = some p) : t = p + 1 ∧ p < 2 := by
  have hs := (mixed.succ_iff p t).mpr h
  simp only [mixed, Program.chain] at hs
  split at hs
  case isTrue hp => exact ⟨(Option.some.inj hs).symm, hp⟩
  case isFalse => cases hs

/-- A list of these tasks that has the predecessors and a task that signals. -/
theorem mixed_given {m : Shared Nat Nat} (hfresh : ∀ t, t ≠ 0 →
      ((m.cell t).state = .pending ∨ (m.cell t).state = .cancelled) ∧ (m.cell t).invoked = [])
    (hdecided : (m.cell 0).state ≠ .pending)
    (hresult : (m.cell 0).state = .ready → (m.cell 0).buffer ≠ none)
    (hn : ts.Nodup) (h0 : 0 ∉ ts) (h2 : 2 ∈ ts → 1 ∈ ts) (h5 : 5 ∈ ts → 3 ∈ ts) :
    Given mixed m ts where
  nodup := hn
  fresh t ht := hfresh t fun he => h0 (he ▸ ht)
  returns _ _ _ := ⟨5, rfl⟩
  signalled t ht s hs := by
    simp only [mixed] at hs
    split at hs
    case isTrue he =>
      subst he
      exact .inr ⟨3, h5 ht, by simpa [mixed] using hs⟩
    case isFalse => simp at hs
  decided t ht p hp := by
    obtain ⟨rfl, hlt⟩ := mixed_pred hp
    rcases Nat.lt_succ_iff_lt_or_eq.mp hlt with h | rfl
    · obtain rfl : p = 0 := Nat.lt_one_iff.mp h
      exact .inr hdecided
    · exact .inl (h2 ht)
  result t ht p hp hpt hs := by
    obtain ⟨rfl, hlt⟩ := mixed_pred hp
    rcases Nat.lt_succ_iff_lt_or_eq.mp hlt with h | rfl
    · obtain rfl : p = 0 := Nat.lt_one_iff.mp h
      exact hresult hs
    · exact absurd (h2 ht) hpt
  acyclic := by
    refine acyclic_of_lt fun t u hd => ?_
    obtain ⟨-, -, hp | ⟨s, hs, -, hu⟩⟩ := hd
    · exact mixed.predecessor_lt t u hp
    · simp only [mixed] at hs hu
      grind

theorem mixedMemory_given (hn : ts.Nodup) (h0 : 0 ∉ ts) (h2 : 2 ∈ ts → 1 ∈ ts)
    (h5 : 5 ∈ ts → 3 ∈ ts) : Given mixed mixedMemory ts := by
  refine mixed_given (fun t ht0 => ?_) (by decide) (by decide) hn h0 h2 h5
  by_cases ht2 : t = 2
  · simp [mixedMemory, ht2, Shared.modify, Shared.init, Cell.init]
  · simp [mixedMemory, ht0, ht2, Shared.modify, Shared.init, Cell.init]

theorem takenMemory_given (hn : ts.Nodup) (h0 : 0 ∉ ts) (h2 : 2 ∈ ts → 1 ∈ ts)
    (h5 : 5 ∈ ts → 3 ∈ ts) : Given mixed takenMemory ts := by
  refine mixed_given (fun t ht0 => ?_) (by decide) (by decide) hn h0 h2 h5
  simp [takenMemory, ht0, Shared.modify, Shared.init, Cell.init]

theorem mixed_untaken (h2 : 2 ∈ ts → 1 ∈ ts) : Untaken mixed mixedMemory ts := by
  intro t ht p hp hpt hs
  obtain ⟨rfl, hlt⟩ := mixed_pred hp
  rcases Nat.lt_succ_iff_lt_or_eq.mp hlt with h | rfl
  · obtain rfl : p = 0 := Nat.lt_one_iff.mp h
    rfl
  · exact absurd (h2 ht) hpt

/-- In one order the function `5` runs before `4` has signalled, and `2` ends in another way
if it comes before `1`.  After somebody has waited for `0`, its continuation blocks. -/
theorem not_in_any_order :
    (¬∀ ts : List TaskId, Given mixed mixedMemory ts → ∀ l : List TaskId, l.Perm ts → ∀ r,
      passes mixed 0 ts.length (l.map mixed.task) mixedMemory = .ok ([], r) →
        StrictlyInOrder mixed mixedMemory ts r.log) ∧
    (¬∀ ts : List TaskId, Given mixed mixedMemory ts →
      ∀ t ∈ ts, OrderFree mixed 0 mixedMemory ts t) ∧
    ¬∀ ts : List TaskId, Given mixed takenMemory ts → ∃ r,
      passes mixed 0 ts.length (ts.map mixed.task) takenMemory = .ok ([], r) := by
  refine ⟨fun h => ?_, fun h => ?_, fun h => ?_⟩
  · have hstrict := h [3, 4, 5]
      (mixedMemory_given (by decide) (by decide) (by decide) (by decide)) [3, 5, 4] (by decide) _
      rfl
    have hdone := hstrict _ 5 none _ (show _ = [_, _, _, _, _, _, _, _, _, _, _] ++ _ from rfl) 4
      ⟨by decide, by decide, .inr ⟨0, by decide, rfl, by decide⟩⟩
    simp [Done, Program.task] at hdone
  · have hfree := h [1, 2] (mixedMemory_given (by decide) (by decide) (by decide) (by decide)) 2
      (by decide)
    have hstate := hfree [1, 2] [2, 1] (by decide) (by decide) _ _ rfl rfl
    cases hstate
  · obtain ⟨r, hr⟩ := h [1] (takenMemory_given (by decide) (by decide) (by decide) (by decide))
    cases hr

/-- All five tasks in one order: the function `5` waits for `3` or `4`.  The task `1` inherits
the panic from a task outside the list, so it is not contested. -/
theorem run_all_in_any_order_mixed :
    (∃ r, passes mixed 0 5 ([5, 2, 4, 1, 3].map mixed.task) mixedMemory = .ok ([], r) ∧
      Completed mixed mixedMemory [1, 2, 3, 4, 5] r) ∧
    OrderFree mixed 0 mixedMemory [1, 2, 3, 4, 5] 1 := by
  obtain ⟨hall, hfree⟩ := run_all_in_any_order 0 mixedMemory [1, 2, 3, 4, 5]
    (mixedMemory_given (by decide) (by decide) (by decide) (by decide)) (mixed_untaken (by decide))
  refine ⟨hall _ (by decide), hfree 1 (by decide) fun hc => ?_⟩
  cases hc with
  | first _ hp h | next _ hp h =>
      obtain ⟨he, -⟩ := mixed_pred hp
      obtain rfl := Nat.succ.inj he
      exact absurd h.mem (by decide)

/-! ## In the pool -/

theorem Given.congr {m' : Shared V P} (h : Given prog m ts) (hsem : m'.sem = m.sem)
    (hcell : ∀ t, (m'.cell t).state = (m.cell t).state ∧ (m'.cell t).invoked = (m.cell t).invoked ∧
      (m'.cell t).buffer = (m.cell t).buffer) : Given prog m' ts where
  nodup := h.nodup
  fresh t ht := by
    rw [(hcell t).1, (hcell t).2.1]
    exact h.fresh t ht
  returns := h.returns
  signalled t ht s hs := by
    rw [hsem]
    exact h.signalled t ht s hs
  decided t ht p hp := by
    rw [(hcell p).1]
    exact h.decided t ht p hp
  result t ht p hp hpt := by
    rw [(hcell p).1, (hcell p).2.2]
    exact h.result t ht p hp hpt
  acyclic := by
    have hdep : Depends prog m' ts = Depends prog m ts := by
      unfold Depends
      rw [hsem]
    rw [hdep]
    exact h.acyclic

end RunAll

namespace Pool

open RunAll

variable {cfg : Specs} {s : (pool cfg prog).State}

/-- Tasks that can be submitted are new, and what they take from their predecessors is there. -/
theorem Reachable.given (h : Reachable s) (hs : s.mem.Submittable ts)
    (hreturns : ∀ t ∈ ts, ∀ v, ∃ r, prog.body t v = .ok r)
    (hsignalled : ∀ t ∈ ts, ∀ g ∈ prog.wait t, s.mem.sem g = true ∨ ∃ u ∈ ts, g ∈ prog.semaphores u)
    (hdecided : ∀ t ∈ ts, ∀ p, prog.pred t = some p → p ∈ ts ∨ (s.mem.cell p).state ≠ .pending)
    (hacyclic : ∀ t, ¬Relation.TransGen (Depends prog s.mem ts) t t) : Given prog s.mem ts := by
  have hstage : ∀ t ∈ ts, (s.mem.cell t).stage = .fresh :=
    fun t ht => h.inv.places.user t (hs.2.2 t ht)
  refine ⟨hs.2.1, fun t ht => ?_, hreturns, hsignalled, hdecided, fun t ht p hp _ hready => ?_,
    hacyclic⟩
  · have hok := h.inv.life.cell t
    rw [CellOk, hstage t ht] at hok
    obtain ⟨hopen, hinvoked, -⟩ := hok
    exact ⟨hopen.state.imp And.left And.left, hinvoked⟩
  · have hok := h.inv.life.cell p
    obtain ⟨-, f, hf, hdec⟩ := hok.decided_of_state (by simp [hready]) (by simp [hready])
    obtain rfl := Option.some.inj (hf.symm.trans (hok.finish_of_ready hready))
    have hlink := h.inv.linked t p hp
    simp only [LinkOk, hstage t ht] at hlink
    exact hdec.2.2.2 hlink.1

/-- A call of `submit_all` gets to the end of its list, if no other thread moves. -/
theorem run_all_ends (hc : cfg.threadCount = 0) (hidle : caller s e = .idle)
    (hs : s.mem.Submittable ts) (hg : Given prog s.mem ts) (hu : Untaken prog s.mem ts) :
    ∃ k log, ∀ s', s' = s.after (call e (.submitAll ts) :: List.replicate k (call e .proceed)) →
      caller s' e = .run (.begin true []) ∧
        Completed prog ((Op.beginRun e ts).exec s.mem) ts ⟨s'.mem, log⟩ := by
  have hcall : s.step (call e (.submitAll ts)) =
      some (s.move (.caller e) (.run (.begin true (ts.map prog.task))) (.beginRun e ts)) := by
    refine System.State.step_of_next (a := call e (.submitAll ts)) ?_
    show callerNext cfg prog e (.submitAll ts) (caller s e) s.mem = _
    simp only [hidle, callerNext, callNext, submitNext, hs, hc, if_true]
    rfl
  have hcell : ∀ t, (((Op.beginRun e ts).exec s.mem).cell t).state = (s.mem.cell t).state ∧
      (((Op.beginRun e ts).exec s.mem).cell t).invoked = (s.mem.cell t).invoked ∧
      (((Op.beginRun e ts).exec s.mem).cell t).buffer = (s.mem.cell t).buffer ∧
      (((Op.beginRun e ts).exec s.mem).cell t).signal = (s.mem.cell t).signal := by
    intro t
    by_cases ht : t ∈ ts <;> simp [Op.exec, Shared.move, ht]
  have hg' : Given prog ((Op.beginRun e ts).exec s.mem) ts :=
    hg.congr rfl fun t => ⟨(hcell t).1, (hcell t).2.1, (hcell t).2.2.1⟩
  have hu' : Untaken prog ((Op.beginRun e ts).exec s.mem) ts := by
    intro t ht p hp hpt hready
    rw [(hcell p).2.2.2]
    exact hu t ht p hp hpt ((hcell p).1.symm.trans hready)
  obtain ⟨r, hr, -, hi⟩ := hg'.passes hu' e (.refl ts)
  obtain ⟨k, hk⟩ := passes_caller (s := s.move (.caller e) _ (.beginRun e ts))
    (caller_move s (.beginRun e ts) e _) hr
  refine ⟨k, r.log, fun s' hs' => ?_⟩
  obtain ⟨hend, hmem⟩ := hk s' (by rw [hs', System.State.after_cons, hcall]; rfl)
  exact ⟨hend, hmem ▸ hi.completed hg'⟩

end Pool

end MVSync
