import MVSync.Pool.Inline
import MVSync.Pool.Quiescence

/-!
# What inline execution loses

Two steps of a pool without threads leave a task unsettled for ever: `run` drops
a task that it cannot execute, and a body that panics unwinds through `run` and
`run_all` to the user (`Pool.abandoned_cases`).
-/

namespace MVSync

open Concurrency Pool

variable {V P : Type} {cfg cfg' : Specs} {prog : Program V P} {m : Shared V P} {i : Tid}
  {t : TaskId} {x : Task} {op : Op V P} {e : CallerId} {c : CallerInput}

/-! ## What is dropped -/

/-- The test of a caller that finds the task at hand not executable. -/
def CallerPc.refuses (m : Shared V P) : CallerPc V P → Option Task
  | .canExecute x (g :: _) _ => if m.sem g then none else some x
  | .canExecute x [] _ => if m.predState x != .pending then none else some x
  | _ => none

theorem Op.drops_of_ofFuture (h : op.ofFuture = true) : op.drops = false := by
  cases op <;> first | rfl | cases h

/-- A caller drops its tasks when a panic unwinds, or the one at hand when that
is not executable and the caller is in `run`. -/
theorem callerNext_loses {p p' : CallerPc V P} (hp : p.Inline)
    (h : callerNext cfg prog e c p m = some (p', op)) (ho : op.drops = true) :
    (∃ q, p = .unwind q) ∨ ∃ x ss q, p = .canExecute x ss q ∧ q.all = false ∧
      p.refuses m = some x ∧ op = .dropTask x.id := by
  cases callerNext_step h with
  | unwind => exact .inl ⟨_, rfl⟩
  | unsignalledDropped hg ha =>
      exact .inr ⟨_, _, _, rfl, ha, by simp [CallerPc.refuses, hg], rfl⟩
  | predPendingDropped hx ha =>
      exact .inr ⟨_, _, _, rfl, ha, by simp [CallerPc.refuses, hx], rfl⟩
  | failSubmit => exact hp.elim
  | giveUp _ _ hn =>
      have hq := hp _ rfl
      omega
  | more hpoll | pending hpoll | err hpoll | ready hpoll =>
      simp [Op.drops_of_ofFuture (pollNext_ofFuture hpoll)] at ho
  | settle hs | settled hs => simp [Op.drops_of_ofFuture (settleNext_ofFuture hs)] at ho
  | _ => cases ho

/-- A caller that refuses a task has found that it cannot be executed. -/
theorem CallerPc.Loc.canExecute_of_refuses {p : CallerPc V P} (hk : p.Loc prog e m)
    (h : p.refuses m = some x) : m.canExecute (prog.task x.id) = false := by
  cases p with
  | canExecute y ss q =>
      have hb : prog.Built y := (hk.tasks _ rfl).head_built
      obtain ⟨past, hpast, -⟩ := hk.knows
      cases ss with
      | nil =>
          simp only [CallerPc.refuses] at h
          split at h
          case isTrue => cases h
          case isFalse hne =>
            obtain rfl := Option.some.inj h
            have hpred : m.predState (prog.task y.id) = m.predState y := by
              simp [Shared.predState, Program.task, hb.inner]
            simp [Shared.canExecute, hpred, Bool.eq_false_iff.mpr hne]
      | cons g gs =>
          simp only [CallerPc.refuses] at h
          split at h
          case isTrue => cases h
          case isFalse hg =>
            obtain rfl := Option.some.inj h
            have hall : (prog.task y.id).wait.all m.sem = false := by
              rw [List.all_eq_false]
              exact ⟨g, by simp [Program.task, hpast], hg⟩
            simp [Shared.canExecute, hall]
  | _ => cases h

/-- A task whose body was invoked could be executed. -/
theorem Inv.canExecute_of_running (hi : Inv prog m) {v : Option V}
    (ha : m.At i t (.running v)) : m.canExecute (prog.task t) = true := by
  have hc := hi.life.cell t
  rw [CellOk, ha.2] at hc
  obtain ⟨-, hw, hin⟩ := hi.life.invoked t v (by simp [hc.2.1])
  have hpred : m.predState (prog.task t) ≠ .pending := by
    unfold Shared.predState
    rcases hin with ⟨hp, -⟩ | ⟨p, r, hp, -, hr⟩
    · simp [Program.task, show (prog.inner t).predecessor = none from hp]
    · have hne := (((hi.life.cell p).resultOk hr).2)
      simpa [Program.task, show (prog.inner t).predecessor = some p from hp] using
        ((hi.life.cell p).woken_of_wakes hne).state_ne_pending
  simp only [Shared.canExecute, Bool.and_eq_true, List.all_eq_true]
  exact ⟨hw, TaskState.bne_pending.mpr hpred⟩

namespace Pool

variable {s s' : (pool cfg prog).State} {a : (pool cfg prog).Action}

/-! ## The two ways to lose a task -/

/-- Without threads, a task is abandoned by a `run` that cannot execute it, or by
a body that panics. -/
theorem abandoned_cases (hc : cfg.threadCount = 0) (h : Reachable s) (hs : s.step a = some s')
    (ht : Abandoned s' t) :
    Abandoned s t ∨
      (Performs s a (.dropTask t) ∧ s.mem.canExecute (prog.task t) = false) ∨
      ∃ u, Performs s a (.futurePanics u) := by
  have hless := h.threadless hc
  obtain ⟨o, ho, hmem⟩ := mem_of_step hs
  have hpre := h.performs ho
  have hw : (s.mem.cell t).wakes = [] := by
    have hpfx := ((h.grows hs).cell t).wakes
    rwa [ht.1, List.prefix_nil] at hpfx
  have howner := Op.owner_cases hpre h.inv.places t
  rw [← hmem] at howner
  have drops : ∀ e, a.tid = .caller e → o.drops = true →
      (s.mem.cell t).owner = .thread (.caller e) →
      Unwinds s t ∨ ∃ x, (Pool.caller s e).refuses s.mem = some x ∧ o = .dropTask x.id := by
    intro e he hd hown
    obtain ⟨i, c⟩ := a
    subst he
    obtain ⟨q, hn⟩ := ho
    rcases callerNext_loses (hless.caller e) hn hd with ⟨q', hq'⟩ | ⟨x, -, -, -, -, hx⟩
    · exact .inl ⟨e, q', hown, hq'⟩
    · exact .inr ⟨x, hx⟩
  rcases ht.2 with hg | ⟨e, q, he, hq⟩
  · rcases howner with heq | hcarry
    · exact .inl ⟨hw, .inl (heq.symm.trans hg)⟩
    · have hold := hless.owner t
      generalize hown : (s.mem.cell t).owner = o₁ at hold hcarry
      rw [hg] at hcarry
      cases hcarry with
      | wakeQueue j home site =>
          have hcell := h.inv.life.cell t
          rw [CellOk, hpre.1.2] at hcell
          simp [hw] at hcell
      | dropTask j =>
          obtain ⟨⟨e, he⟩, hat⟩ := hpre
          rcases drops e he rfl (he ▸ hat.1) with hu | ⟨x, hx, hox⟩
          · exact .inl ⟨hw, .inr hu⟩
          · obtain rfl : t = x.id := by simpa using hox
            exact .inr (.inl ⟨ho, (h.caller e).canExecute_of_refuses hx⟩)
      | dropDispatcher => simp at hold
      | dropChannel => simp at hold
      | failSubmit e =>
          rcases drops e hpre.1 rfl hown with hu | ⟨x, -, hox⟩
          · exact .inl ⟨hw, .inr hu⟩
          · cases hox
      | dropCaller e =>
          rcases drops e hpre.1 rfl hown with hu | ⟨x, -, hox⟩
          · exact .inl ⟨hw, .inr hu⟩
          · cases hox
  · by_cases hi : a.tid = .caller e
    · obtain ⟨i, c⟩ := a
      obtain rfl : i = .caller e := hi
      obtain ⟨q', hn⟩ := ho
      obtain ⟨q'', o', hn', rfl⟩ := System.State.step_cases hs
      obtain ⟨rfl, rfl⟩ := Prod.mk.inj (Option.some.inj (hn'.symm.trans hn))
      have hq'' : q'' = .unwind q := (caller_move s o' e q'').symm.trans hq
      subst hq''
      rcases callerNext_unwinds hn with ⟨htasks, rfl⟩ | ⟨x, p, hp⟩ | hu
      · exact absurd he (Shared.Has.nil_iff.mp ((h.caller e).tasks _ htasks) t)
      · have hin := hless.caller e
        rw [show Pool.caller s e = _ from hp] at hin
        exact hin.elim
      · exact .inr (.inr (hu.imp fun _ hu => ⟨_, hu ▸ hn⟩))
    · have hpc : caller s' e = caller s e := by
        obtain ⟨q', o', -, rfl⟩ := System.State.step_cases hs
        exact System.State.move_pc_of_ne s q' o' (Ne.symm hi)
      have hf := (h.inv.rely hpre (Ne.symm hi)).frame t
      exact .inl ⟨hw, .inr ⟨e, q, hf.1.mp (hmem ▸ he), hpc.symm.trans hq⟩⟩

/-- A caller that has a task whose future panicked unwinds. -/
theorem Reachable.unwinds (h : Reachable s) {e : CallerId}
    (ha : s.mem.At (.caller e) t .panicking) : Unwinds s t := by
  cases hl : (Pool.caller s e).tasks with
  | none =>
      cases hp : Pool.caller s e with
      | unwind q => exact ⟨e, q, ha.1, hp⟩
      | _ => simp [hp, CallerPc.tasks] at hl
  | some l =>
      obtain ⟨x, rfl, hx⟩ := ((h.caller e).tasks l hl).exists_mem ha.1
      rw [ha.2] at hx
      cases hp : Pool.caller s e with
      | poll y pc q =>
          rw [hp] at hl
          obtain rfl := Option.some.inj hl
          cases pc <;> simp [Pass.tasks, fresh, PollPc.stage] at hx
      | settle y site sp q =>
          rw [hp] at hl
          obtain rfl := Option.some.inj hl
          cases sp <;> simp [Pass.tasks, fresh, SettlePc.stage] at hx
      | unwind q => simp [hp, CallerPc.tasks] at hl
      | _ =>
          rw [hp] at hl
          obtain rfl := Option.some.inj hl
          simp [Pass.tasks, fresh] at hx

/-- A task that `run` drops is lost. -/
theorem abandoned_of_dropTask (h : Reachable s) (ho : Performs s a (.dropTask t))
    (hs : s.step a = some s') : ¬Abandoned s t ∧ Abandoned s' t := by
  obtain ⟨⟨e, he⟩, hat⟩ := h.performs ho
  have hc := h.inv.life.cell t
  rw [CellOk, hat.2] at hc
  obtain ⟨o, ho', hmem⟩ := mem_of_step hs
  obtain rfl := ho.unique ho'
  refine ⟨?_, by simp [hmem, Op.exec, hc.1.wakes], .inl (by simp [hmem, Op.exec])⟩
  rintro ⟨-, hg | ⟨e', q, hown, hq⟩⟩
  · simp [hat.1] at hg
  · -- a caller that unwinds does not drop a single task
    obtain ⟨i, c⟩ := a
    obtain rfl : i = .caller e := he
    obtain rfl : e = e' := by simpa [hat.1] using hown
    obtain ⟨q', hn⟩ := ho
    have hn' : callerNext cfg prog e c (Pool.caller s e) s.mem = some (q', .dropTask t) := hn
    rw [hq] at hn'
    cases hn'

/-- Without threads, a task whose body panics is lost. -/
theorem abandoned_of_futurePanics (hc : cfg.threadCount = 0) (h : Reachable s)
    (ho : Performs s a (.futurePanics t)) (hs : s.step a = some s') :
    ¬Abandoned s t ∧ Abandoned s' t ∧ s.mem.canExecute (prog.task t) = true := by
  obtain ⟨v, q, hat, -⟩ := h.performs ho
  obtain ⟨e, he⟩ := (h.threadless hc).tid_eq hat
  have hcell := h.inv.life.cell t
  rw [CellOk, hat.2] at hcell
  obtain ⟨o, ho', hmem⟩ := mem_of_step hs
  obtain rfl := ho.unique ho'
  have hat' : s'.mem.At (.caller e) t .panicking := by
    refine ⟨?_, by simp [hmem, Op.exec]⟩
    rw [← he, ← hat.1]
    simp [hmem, Op.exec]
  refine ⟨?_, ⟨by simp [hmem, Op.exec, hcell.1.wakes], .inr ?_⟩, h.inv.canExecute_of_running hat⟩
  · rintro ⟨-, hg | ⟨e', q', hown, hq'⟩⟩
    · simp [hat.1] at hg
    · obtain ⟨i, c⟩ := a
      obtain rfl : i = .caller e := he
      obtain rfl : e = e' := by simpa [hat.1] using hown
      obtain ⟨p', hn⟩ := ho
      have hn' : callerNext cfg prog e c (Pool.caller s e) s.mem = some (p', .futurePanics t) := hn
      rw [hq'] at hn'
      cases hn'
  · exact Reachable.unwinds (.step a h hs trivial) hat'

/-! ## Accounts -/

/-- The task is with the user, held inside a call, or settled. -/
def Accounted (s : (pool cfg prog).State) (t : TaskId) : Prop :=
  (s.mem.cell t).owner = .user ∨
    (∃ e, (s.mem.cell t).owner = .thread (.caller e) ∧ ∀ q, caller s e ≠ .unwind q) ∨ Settled s t

theorem accounted_iff (hc : cfg.threadCount = 0) (h : Reachable s) :
    Accounted s t ↔ ¬Abandoned s t := by
  constructor
  · rintro (hu | ⟨e, he, hq⟩ | hset) ⟨hw, hg | ⟨e', q, he', hq'⟩⟩
    · simp [hu] at hg
    · simp [hu] at he'
    · simp [he] at hg
    · obtain rfl : e = e' := by simpa [he] using he'
      exact hq q hq'
    · obtain ⟨site, hsite, -⟩ := hset.site
      simp [hw] at hsite
    · obtain ⟨site, hsite, -⟩ := hset.site
      simp [hw] at hsite
  · intro hna
    by_cases hw : (s.mem.cell t).wakes = []
    · rcases (h.threadless hc).owner t with hu | hg | ⟨e, he⟩
      · exact .inl hu
      · exact absurd ⟨hw, .inl hg⟩ hna
      · exact .inr (.inl ⟨e, he, fun q hq => hna ⟨hw, .inr ⟨e, q, he, hq⟩⟩⟩)
    · exact .inr (.inr (h.settled hw))

theorem Abandoned.init : ¬Abandoned (poolInit cfg prog) t := by
  rintro ⟨-, hg | ⟨e, q, he, -⟩⟩
  · cases hg
  · cases he

end Pool

end MVSync
