import MVSync.Pool.Chain
import MVSync.Pool.Dataflow

/-!
# The order of the calls

The bodies of a chain are called by whichever thread has the task, and the calls of other
tasks come in between.  Still a chain does what it would do in one go: the calls of its
bodies come in the order of the chain, each with what the one before it returned, and they
stop at the first panic (`Pool.chain_trace`).  So whatever the bodies do to the outside
world, such as printing a line, happens in this order.

The calls of a run are read off its operations.  The memory keeps for every task what its
body was called with, and for a chain the two agree (`calls_log`).
-/

namespace MVSync

open Concurrency Pool

variable {V P : Type} {cfg : Specs} {prog : Program V P} {m : Shared V P} {i : Tid}
  {t u p : TaskId} {ts : List TaskId} {v : Option V}

/-! ## Calls -/

/-- The call of a body that an operation is. -/
def Op.call : Op V P → Option (TaskId × Option V)
  | .invoke t v => some (t, v)
  | _ => none

theorem Op.call_eq_some {op : Op V P} {c : TaskId × Option V} (h : op.call = some c) :
    op = .invoke c.1 c.2 := by
  cases op with
  | invoke t v =>
      obtain rfl := Option.some.inj h
      rfl
  | _ => cases h

/-- The calls of the bodies of `ts` among some operations, in order. -/
def calls (ts : List TaskId) (l : List (Op V P)) : List (TaskId × Option V) :=
  (l.filterMap Op.call).filter fun c => c.1 ∈ ts

/-- What the memory has of the calls of the bodies of `ts`. -/
def Shared.calls (m : Shared V P) (ts : List TaskId) : List (TaskId × Option V) :=
  ts.flatMap fun t => (m.cell t).invoked.map (t, ·)

/-- The calls of a chain that is run in one go: every body gets what the one before it
returned, up to the first panic. -/
def Program.trace (prog : Program V P) : List TaskId → Option V → List (TaskId × Option V)
  | [], _ => []
  | t :: ts, v => (t, v) ::
      match prog.body t v with
      | .ok r => prog.trace ts (some r)
      | .error _ => []

@[simp] theorem Program.trace_singleton : prog.trace [t] v = [(t, v)] := by
  rw [trace]
  cases prog.body t v <;> rfl

theorem Program.foldl_error (q : Payload P) :
    ts.foldl (fun (r : Except (Payload P) V) u => r.bind fun v => prog.body u (some v))
      (.error q) = .error q := by
  induction ts with
  | nil => rfl
  | cons _ _ ih => exact ih

/-- A further task of a chain is called when the chain before it returns. -/
theorem Program.trace_concat :
    prog.trace (t :: (ts ++ [u])) none = prog.trace (t :: ts) none ++
      match prog.chainValue t ts with
      | .ok r => [(u, some r)]
      | .error _ => [] := by
  suffices h : ∀ v, prog.trace (t :: (ts ++ [u])) v = prog.trace (t :: ts) v ++
      match ts.foldl (fun r u => r.bind fun v => prog.body u (some v)) (prog.body t v) with
      | .ok r => [(u, some r)]
      | .error _ => [] from h none
  intro v
  induction ts generalizing t v with
  | nil =>
      rw [List.nil_append, trace, trace_singleton, List.foldl_nil]
      cases prog.body t v with
      | ok r => simp
      | error q => rfl
  | cons w ws ih =>
      rw [List.cons_append, trace, trace, List.foldl_cons]
      cases prog.body t v with
      | ok r => exact congrArg ((t, v) :: ·) (ih (t := w) (some r))
      | error q =>
          have hq : (Except.error q).bind (fun v => prog.body w (some v)) = .error q := rfl
          rw [hq, foldl_error]
          rfl

/-! ## Tasks that were not called -/

/-- A task that finished without a call was cancelled, or its predecessor panicked. -/
def Answered (prog : Program V P) (m : Shared V P) : Prop :=
  ∀ t f, (m.cell t).finish = some f → (m.cell t).invoked = [] →
    f = .cancelled ∨ f = .panicked ∧ ∃ p, prog.pred t = some p ∧
      (m.cell p).finish = some .panicked

theorem Shared.modify_finish {f : Cell V P → Cell V P} (t : TaskId)
    (hf : ∀ c, (f c).finish = c.finish := by exact fun _ => rfl) :
    ((m.modify u f).cell t).finish = (m.cell t).finish := by
  by_cases hu : t = u
  · subst hu
    rw [Shared.modify_cell_self, hf]
  · rw [Shared.modify_cell_of_ne _ _ hu]

theorem Shared.drop_finish (m : Shared V P) (o : Owner) (t : TaskId) :
    ((m.drop o).cell t).finish = (m.cell t).finish := by
  simp only [Shared.drop]
  split <;> rfl

theorem Shared.move_finish (m : Shared V P) (ts : List TaskId) (o : Owner) (t : TaskId) :
    ((m.move ts o).cell t).finish = (m.cell t).finish := by
  simp only [Shared.move]
  split <;> rfl

theorem Taker.advance_finish (k : Taker) (st : Stage V P) (m : Shared V P) (t : TaskId) :
    ((k.advance st m).cell t).finish = (m.cell t).finish := by
  cases k with
  | continuation =>
      simp only [Taker.advance]
      exact Shared.modify_finish t
  | handle | observer => rfl

/-- A task finishes when its body ends, or when it is skipped. -/
theorem Op.finish_cases {op : Op V P} (hp : op.Pre prog i m) (t : TaskId) :
    ((op.exec m).cell t).finish = (m.cell t).finish ∨
      (∃ v, (m.cell t).stage = .running v) ∨ ∃ st f, op = .replace t st f := by
  cases op
  case bodyReturns u r =>
    by_cases hu : t = u
    · subst hu
      obtain ⟨v, ha, -⟩ := hp
      exact .inr (.inl ⟨v, ha.2⟩)
    · exact .inl (by rw [Op.exec, Shared.modify_cell_of_ne _ _ hu])
  case futurePanics u =>
    by_cases hu : t = u
    · subst hu
      obtain ⟨v, q, ha, -⟩ := hp
      exact .inr (.inl ⟨v, ha.2⟩)
    · exact .inl (by rw [Op.exec, Shared.modify_cell_of_ne _ _ hu])
  case foundCancelled u w =>
    by_cases hu : t = u
    · subst hu
      obtain ⟨-, ⟨v, ha⟩, -⟩ := hp
      exact .inr (.inl ⟨v, ha.2⟩)
    · exact .inl (by simp [Op.exec, Shared.modify_cell_of_ne _ _ hu])
  case replace u st f =>
    by_cases hu : t = u
    · subst hu
      exact .inr (.inr ⟨st, f, rfl⟩)
    · exact .inl (by rw [Op.exec, Shared.modify_cell_of_ne _ _ hu])
  case silent => exact hp.elim
  case waitSignal u k | takeResult u k r | takeBuffer u k v =>
    exact .inl ((Taker.advance_finish _ _ _ t).trans (Shared.modify_finish t))
  case recv | recvWorker =>
    refine .inl ?_
    simp only [Op.exec]
    split
    · rfl
    · dsimp only
      exact Shared.modify_finish t
  case dropDispatcher =>
    exact .inl ((Shared.drop_finish _ _ t).trans (Shared.drop_finish _ _ t))
  case failSubmit | dropCaller => exact .inl (Shared.drop_finish _ _ t)
  case beginSubmit | beginRun => exact .inl (Shared.move_finish _ _ _ t)
  all_goals first
    | exact .inl rfl
    | refine .inl ?_
      simp only [Op.exec]
      exact Shared.modify_finish t

theorem Answered.init (cfg : Specs) : Answered prog (.init cfg) :=
  fun _ _ hf _ => by cases hf

theorem Answered.exec (h : Answered prog m) (hl : Life prog m) {op : Op V P}
    (hp : op.Pre prog i m) : Answered prog (op.exec m) := by
  have hg : m.Grows (op.exec m) := op.grows hl hp
  intro t f hf hinv
  have hinv : (m.cell t).invoked = [] := by
    have hpre := (hg.cell t).invoked
    rwa [hinv, List.prefix_nil] at hpre
  rcases Op.finish_cases hp t with hsame | ⟨v, hrun⟩ | ⟨st, f', rfl⟩
  · rcases h t f (hsame ▸ hf) hinv with hc | ⟨hpan, p, hpred, hp⟩
    · exact .inl hc
    · exact .inr ⟨hpan, p, hpred, (hg.cell p).finish _ hp⟩
  · have hcell := hl.cell t
    rw [CellOk, hrun] at hcell
    rw [hcell.2.1] at hinv
    cases hinv
  · obtain ⟨-, hsk⟩ := hp
    obtain rfl : f' = f := by simpa [Op.exec] using hf
    unfold Skips at hsk
    split at hsk
    · obtain ⟨-, p, hpred, hfin⟩ := hsk
      exact .inr ⟨rfl, p, hpred, (hg.cell p).finish _ hfin⟩
    · exact .inl rfl
    · exact hsk.elim

theorem Pool.Reachable.answered {s : (pool cfg prog).State} (h : Reachable s) :
    Answered prog s.mem := by
  refine h.invariant (I := fun s => Answered prog s.mem) (.init cfg) ?_
  intro s s' a hr hi hs _
  obtain ⟨o, ho, hm⟩ := mem_of_step hs
  rw [hm]
  exact hi.exec (Reachable.inv hr).life (Reachable.performs hr ho)

/-! ## One call after the other -/

/-- Each of the tasks is built from the handle of the one before it. -/
abbrev Program.Follows (prog : Program V P) (ts : List TaskId) : Prop :=
  List.IsChain (fun p u => prog.pred u = some p) ts

theorem Program.Follows.nodup (h : prog.Follows ts) : ts.Nodup := by
  have hlt : List.IsChain (· < ·) ts := h.imp fun _ _ => Program.pred_lt
  exact (List.isChain_iff_pairwise.mp hlt).imp Nat.ne_of_lt

@[simp] theorem Shared.calls_nil : m.calls [] = [] := rfl

@[simp] theorem Shared.calls_cons :
    m.calls (t :: ts) = (m.cell t).invoked.map (t, ·) ++ m.calls ts := List.flatMap_cons

@[simp] theorem Shared.calls_append (us : List TaskId) :
    m.calls (ts ++ us) = m.calls ts ++ m.calls us := List.flatMap_append

theorem Shared.calls_congr {m' : Shared V P}
    (h : ∀ t ∈ ts, (m'.cell t).invoked = (m.cell t).invoked) : m'.calls ts = m.calls ts := by
  induction ts with
  | nil => rfl
  | cons t ts ih =>
      rw [calls_cons, calls_cons, h t List.mem_cons_self,
        ih fun u hu => h u (List.mem_cons_of_mem t hu)]

/-- The body of a continuation is not called before the one of its predecessor. -/
theorem Life.invoked_next (hl : Life prog m) (ha : Answered prog m) (hp : prog.pred u = some p)
    (hinv : (m.cell p).invoked = []) : (m.cell u).invoked = [] := by
  refine List.eq_nil_iff_forall_not_mem.mpr fun v hv => ?_
  obtain ⟨-, -, hin⟩ := hl.invoked u v hv
  rcases hin with ⟨hnone, -⟩ | ⟨p', a, hp', -, hres⟩
  · simp [hp] at hnone
  · obtain rfl := Option.some.inj (hp.symm.trans hp')
    obtain ⟨-, hfin⟩ := ((hl.cell p).resultOk hres).1
    rcases ha p .returned hfin hinv with hc | ⟨hc, -⟩ <;> cases hc

/-- Behind a task that was not called nothing of the chain was. -/
theorem Life.calls_eq_nil (hl : Life prog m) (ha : Answered prog m)
    (hf : prog.Follows (t :: ts)) (hinv : (m.cell t).invoked = []) : m.calls (t :: ts) = [] := by
  induction ts generalizing t with
  | nil => simp [hinv]
  | cons u us ih =>
      obtain ⟨hp, hf⟩ := List.isChain_cons_cons.mp hf
      rw [Shared.calls_cons, hinv, ih hf (hl.invoked_next ha hp hinv)]
      rfl

/-- A call comes behind the calls of the chain so far. -/
theorem Life.calls_invoke (hl : Life prog m) (ha : Answered prog m) (hf : prog.Follows ts)
    (hu : u ∈ ts) (hinv : (m.cell u).invoked = []) :
    ((Op.invoke u v).exec m).calls ts = m.calls ts ++ [(u, v)] := by
  obtain ⟨pre, post, rfl⟩ := List.append_of_mem hu
  have hother : ∀ us : List TaskId, u ∉ us →
      ((Op.invoke u v).exec m).calls us = m.calls us := by
    intro us hus
    refine Shared.calls_congr fun t ht => ?_
    have hne : t ≠ u := fun he => hus (he ▸ ht)
    rw [Op.exec, Shared.modify_cell_of_ne _ _ hne]
  have hnd := List.nodup_append'.mp hf.nodup
  have hpre : u ∉ pre := fun hmem => hnd.2.2 hmem List.mem_cons_self
  have hpost : u ∉ post := (List.nodup_cons.mp hnd.2.1).1
  have hnil := hl.calls_eq_nil ha hf.right_of_append hinv
  rw [Shared.calls_cons, hinv] at hnil
  simp only [Shared.calls_append, Shared.calls_cons, hother pre hpre, hother post hpost, hinv,
    List.map_nil, List.nil_append] at hnil ⊢
  simp [hnil, Op.exec, hinv]

theorem calls_snoc (l : List (Op V P)) (o : Op V P) :
    calls ts (l ++ [o]) = calls ts l ++ o.call.toList.filter fun c => c.1 ∈ ts := by
  rw [calls, System.filterMap_snoc, List.filter_append]
  rfl

/-- The calls of a chain in a run are the ones that the memory has, in the order of the
chain. -/
theorem Pool.calls_log (hf : prog.Follows ts) (as : List (pool cfg prog).Action) :
    calls ts ((poolInit cfg prog).log as) = ((poolInit cfg prog).after as).mem.calls ts := by
  refine System.State.log_invariant (I := fun l s => calls ts l = s.mem.calls ts) ?_ ?_ as
  · symm
    induction ts with
    | nil => rfl
    | cons t ts ih => exact ih hf.tail
  intro l s a p o hr hi hn
  have hpre := Reachable.performs hr ⟨p, hn⟩
  have hlife := (Reachable.inv hr).life
  rw [calls_snoc, hi, System.State.move_mem]
  change _ = (o.exec s.mem).calls ts
  cases hc : o.call with
  | none =>
      have hsame : ∀ t ∈ ts, ((o.exec s.mem).cell t).invoked = (s.mem.cell t).invoked := by
        intro t _
        refine (Op.cellStep o s.mem t).invoked.resolve_right ?_
        rintro ⟨v, rfl⟩
        cases hc
      simp [Shared.calls_congr hsame]
  | some c =>
      obtain ⟨u, v⟩ := c
      obtain rfl := Op.call_eq_some hc
      by_cases hu : u ∈ ts
      · obtain ⟨-, st, hat, hst⟩ := hpre
        have hw : st.waits = true := by
          rcases hst with rfl | ⟨r, rfl⟩ <;> rfl
        obtain ⟨-, hinv, -, -⟩ := hlife.unstarted hat (.inr hw)
        rw [hlife.calls_invoke (Reachable.answered hr) hf hu hinv]
        simp [hu]
      · have hsame : ∀ t ∈ ts, (((Op.invoke u v).exec s.mem).cell t).invoked =
            (s.mem.cell t).invoked := by
          intro t ht
          have hne : t ≠ u := fun he => hu (he ▸ ht)
          rw [Op.exec, Shared.modify_cell_of_ne _ _ hne]
        simp [hu, Shared.calls_congr hsame]

/-! ## A chain in one go -/

/-- A continuation is called with what its predecessor returned. -/
theorem Life.invoked_eq_some (hl : Life prog m) (hp : prog.pred u = some p) {w : Option V}
    (hu : v ∈ (m.cell u).invoked) (hw : w ∈ (m.cell p).invoked) :
    ∃ r, prog.body p w = .ok r ∧ v = some r := by
  obtain ⟨-, -, hin⟩ := hl.invoked u v hu
  rcases hin with ⟨hnone, -⟩ | ⟨p', a, hp', rfl, hres⟩
  · simp [hp] at hnone
  · obtain rfl := Option.some.inj (hp.symm.trans hp')
    obtain ⟨he, -⟩ := ((hl.cell p).resultOk hres).1
    exact ⟨a, (hl.evals_body hw).unique he, rfl⟩

/-- A continuation of a body that panicked is not called. -/
theorem Life.invoked_of_error (hl : Life prog m) (hp : prog.pred u = some p)
    (hv : v ∈ (m.cell p).invoked) {q : Payload P} (hb : prog.body p v = .error q) :
    (m.cell u).invoked = [] := by
  refine List.eq_nil_iff_forall_not_mem.mpr fun x hx => ?_
  obtain ⟨r, hr, -⟩ := hl.invoked_eq_some hp hx hv
  cases hb.symm.trans hr

/-- A body is called once. -/
theorem Life.invoked_cases (hl : Life prog m) (t : TaskId) :
    (m.cell t).invoked = [] ∨ ∃ v, (m.cell t).invoked = [v] := by
  cases hinv : (m.cell t).invoked with
  | nil => exact .inl rfl
  | cons v vs => exact .inr ⟨v, hinv ▸ (hl.invoked t v (by simp [hinv])).1⟩

/-- What was called of a chain is a beginning of what it does in one go. -/
theorem Life.calls_prefix (hl : Life prog m) (ha : Answered prog m)
    (hf : prog.Follows (t :: ts)) (hv : ∀ w ∈ (m.cell t).invoked, w = v) :
    m.calls (t :: ts) <+: prog.trace (t :: ts) v := by
  induction ts generalizing t v with
  | nil =>
      rcases hl.invoked_cases t with hinv | ⟨w, hinv⟩
      · simp [hinv]
      · obtain rfl := hv w (by simp [hinv])
        simp [hinv, Program.trace]
  | cons u us ih =>
      rcases hl.invoked_cases t with hinv | ⟨w, hinv⟩
      · rw [hl.calls_eq_nil ha hf hinv]
        exact List.nil_prefix
      obtain rfl := hv w (by simp [hinv])
      obtain ⟨hp, hf⟩ := List.isChain_cons_cons.mp hf
      rw [Shared.calls_cons, hinv, Program.trace]
      refine List.cons_prefix_cons.mpr ⟨rfl, ?_⟩
      cases hb : prog.body t w with
      | ok r =>
          refine ih hf fun x hx => ?_
          obtain ⟨r', hr', rfl⟩ := hl.invoked_eq_some hp hx (w := w) (by simp [hinv])
          rw [Except.ok.inj (hb.symm.trans hr')]
      | error q =>
          rw [hl.calls_eq_nil ha hf (hl.invoked_of_error hp (by simp [hinv]) hb)]
          exact List.nil_prefix

/-- Without `cancel`, a task whose outcome is written was called, unless its predecessor
panicked. -/
theorem Life.invoked_ne_nil (hl : Life prog m) (ha : Answered prog m) (hc : ¬SomeCancel m)
    (hd : (m.cell t).stage.decided = true)
    (hp : ∀ p, prog.pred t = some p → ∃ r, prog.Evals p (.ok r)) : (m.cell t).invoked ≠ [] := by
  intro hinv
  obtain ⟨f, hf, hdec⟩ := (hl.cell t).decided_of_stage hd
  rcases ha t f hf hinv with rfl | ⟨rfl, p, hpred, hpan⟩
  · exact hc (hl.cancelled t hdec)
  · obtain ⟨r, hr⟩ := hp p hpred
    obtain ⟨q, hq⟩ := (hl.cell p).evals_of_panicked hpan
    cases hr.unique hq

/-- Without `cancel`, a chain whose outcomes are written has done what it does in one
go. -/
theorem Life.calls_eq (hl : Life prog m) (ha : Answered prog m) (hc : ¬SomeCancel m)
    (hf : prog.Follows (t :: ts)) (hd : ∀ u ∈ ts, (m.cell u).stage.decided = true)
    (hv : (m.cell t).invoked = [v]) : m.calls (t :: ts) = prog.trace (t :: ts) v := by
  induction ts generalizing t v with
  | nil =>
      rw [Shared.calls_cons, hv, Program.trace]
      cases prog.body t v <;> rfl
  | cons u us ih =>
      obtain ⟨hp, hf⟩ := List.isChain_cons_cons.mp hf
      rw [Shared.calls_cons, hv, Program.trace]
      refine congrArg ((t, v) :: ·) ?_
      cases hb : prog.body t v with
      | ok r =>
          refine ih hf (fun x hx => hd x (List.mem_cons_of_mem u hx)) ?_
          have hne := hl.invoked_ne_nil ha hc (hd u List.mem_cons_self) fun p' hp' => by
            obtain rfl := Option.some.inj (hp.symm.trans hp')
            exact ⟨r, hb ▸ hl.evals_body (by simp [hv])⟩
          obtain ⟨x, hx⟩ := (hl.invoked_cases u).resolve_left hne
          obtain ⟨r', hr', rfl⟩ := hl.invoked_eq_some hp (v := x) (w := v) (by simp [hx])
            (by simp [hv])
          rw [hx, Except.ok.inj (hb.symm.trans hr')]
      | error q =>
          exact hl.calls_eq_nil ha hf (hl.invoked_of_error hp (by simp [hv]) hb)

namespace Program.IsChain

variable {s : (pool cfg prog).State}

/-- The first body of a chain is called with nothing. -/
theorem invoked_root (h : prog.IsChain t ts) (hl : Life prog m) :
    ∀ w ∈ (m.cell t).invoked, w = none := by
  intro w hw
  obtain ⟨-, -, hin⟩ := hl.invoked t w hw
  rcases hin with ⟨-, hw⟩ | ⟨p, a, hp, -⟩
  · exact hw
  · simp [h.root] at hp

theorem calls_prefix (h : prog.IsChain t ts) (hr : Reachable s) :
    s.mem.calls (t :: ts) <+: prog.trace (t :: ts) none :=
  hr.inv.life.calls_prefix hr.answered h.links (h.invoked_root hr.inv.life)

theorem calls_eq (h : prog.IsChain t ts) (hr : Reachable s) (hc : ¬SomeCancel s.mem)
    (hs : ∀ u ∈ t :: ts, Settled s u) : s.mem.calls (t :: ts) = prog.trace (t :: ts) none := by
  have hl := hr.inv.life
  have hd : ∀ u ∈ t :: ts, (s.mem.cell u).stage.decided = true := by
    intro u hu
    obtain ⟨site, hsite, -⟩ := (hs u hu).site
    exact (hl.cell u).stage_decided (by simp [hsite])
  have hne := hl.invoked_ne_nil hr.answered hc (hd t List.mem_cons_self) fun p hp => by
    simp [h.root] at hp
  obtain ⟨w, hw⟩ := (hl.invoked_cases t).resolve_left hne
  obtain rfl := h.invoked_root hl w (by simp [hw])
  exact hl.calls_eq hr.answered hc h.links (fun u hu => hd u (List.mem_cons_of_mem t hu)) hw

end Program.IsChain

/-- In every run the calls of a chain are, in their order, a beginning of what the chain does
in one go, and all of it once every task of the chain is settled and none was cancelled. -/
theorem Pool.chain_trace (hch : prog.IsChain t ts) (as : List (pool cfg prog).Action) :
    calls (t :: ts) ((poolInit cfg prog).log as) <+: prog.trace (t :: ts) none ∧
      (¬SomeCancel ((poolInit cfg prog).after as).mem →
        (∀ u ∈ t :: ts, Settled ((poolInit cfg prog).after as) u) →
          calls (t :: ts) ((poolInit cfg prog).log as) = prog.trace (t :: ts) none) := by
  have hr : Reachable ((poolInit cfg prog).after as) := .after as .init
  rw [calls_log hch.links]
  exact ⟨hch.calls_prefix hr, hch.calls_eq hr⟩

set_option maxRecDepth 2000

/-- The chain of two functions is submitted, and runs to its end. -/
def successorSchedule : List (pool Specs.one successorChain).Action :=
  submits 0 [0, 1] ++ turns 40

/-- The first body returns `5`, and the second one is called with that. -/
theorem Pool.chain_trace_successorSchedule :
    calls [0, 1] ((poolInit Specs.one successorChain).log successorSchedule) =
      successorChain.trace [0, 1] none ∧
        successorChain.trace [0, 1] none = [(0, none), (1, some 5)] := by
  have hw : ∀ u ∈ [0, 1], (successorRun.mem.cell u).wakes ≠ [] := by decide
  exact ⟨(chain_trace successorChain_isChain successorSchedule).2
    (noCancel_after (by decide) noCancel_init)
      fun u hu => successorRun_reachable.settled (hw u hu), rfl⟩

end MVSync
