import MVSync.Pool.Custody
import MVSync.Pool.Fallback

/-!
# Labels

The dispatcher relaxes the constraints of a task for which there is no thread: it
drops a preferred label that no thread carries, and then a `not_on` list that
excludes every thread.  Both change the task itself, in some pass over the list, and
the task is sent in a later one.  Whatever has become of the task by then, it goes to
a thread that the constraints it was submitted with call for.
-/

namespace MVSync

open Concurrency Pool

variable {V P : Type} {cfg : Specs} {prog : Program V P} {m : Shared V P} {op : Op V P}
  {x y : Task} {w : WorkerId} {l : Label}

/-! ## The constraints of a task -/

/-- Some thread carries the label. -/
def Specs.HasLabel (cfg : Specs) (l : Label) : Prop := ∃ v ∈ cfg.threads, cfg.getLabel v = some l

/-- A thread is unlabelled, or carries a label outside the list. -/
def Specs.Outside (cfg : Specs) (notOn : List Label) (w : WorkerId) : Prop :=
  ∀ l, cfg.getLabel w = some l → l ∉ notOn

/-- The thread is one that the constraints of the task call for: it carries the
preferred label if some thread does, and otherwise it is outside the `not_on` list if
some thread is. -/
structure Suits (cfg : Specs) (x : Task) (w : WorkerId) : Prop where
  preferred : ∀ l, x.preferredThread = some l → cfg.HasLabel l → cfg.getLabel w = some l
  notOn : (∀ l, x.preferredThread = some l → ¬cfg.HasLabel l) →
    (∃ v ∈ cfg.threads, cfg.Outside x.notOn v) → cfg.Outside x.notOn w

/-- `y` is the task `x`, up to a preferred label that no thread carries and a `not_on`
list that excludes every thread. -/
structure RelaxedFrom (cfg : Specs) (x y : Task) : Prop where
  preferred : y.preferredThread = x.preferredThread ∨
    y.preferredThread = none ∧ ∀ l, x.preferredThread = some l → ¬cfg.HasLabel l
  notOn : y.notOn = x.notOn ∨ y.notOn = [] ∧ ¬∃ v ∈ cfg.threads, cfg.Outside x.notOn v

theorem Specs.getLabel_of_findLabel (h : cfg.findLabel l = some w) : cfg.getLabel w = some l := by
  simpa using List.find?_some h

theorem Specs.findLabel_eq_none : cfg.findLabel l = none ↔ ¬cfg.HasLabel l := by
  simp [findLabel, HasLabel]

theorem Specs.admits_iff : cfg.admits x w = true ↔ cfg.Outside x.notOn w := by
  unfold admits Outside
  cases cfg.getLabel w <;> simp

theorem Specs.mem_candidates :
    w ∈ cfg.candidates x ↔ w ∈ cfg.threads ∧ cfg.Outside x.notOn w := by
  rw [candidates, List.mem_filter, admits_iff]

theorem Specs.candidates_eq_nil :
    cfg.candidates x = [] ↔ ¬∃ v ∈ cfg.threads, cfg.Outside x.notOn v := by
  simp [List.eq_nil_iff_forall_not_mem, mem_candidates]

namespace RelaxedFrom

theorem refl (x : Task) : RelaxedFrom cfg x x := ⟨.inl rfl, .inl rfl⟩

theorem removePreferredThread (h : RelaxedFrom cfg x y) (hl : y.preferredThread = some l)
    (hno : cfg.findLabel l = none) : RelaxedFrom cfg x y.removePreferredThread where
  preferred := by
    refine .inr ⟨rfl, fun k hk => ?_⟩
    rcases h.preferred with he | ⟨hn, -⟩
    · obtain rfl : l = k := Option.some.inj (hl.symm.trans (he.trans hk))
      exact Specs.findLabel_eq_none.mp hno
    · cases hl.symm.trans hn
  notOn := h.notOn

theorem clearNotOn (h : RelaxedFrom cfg x y) (hno : cfg.candidates y = []) :
    RelaxedFrom cfg x y.clearNotOn where
  preferred := h.preferred
  notOn := by
    rcases h.notOn with he | hcleared
    · exact .inr ⟨rfl, he ▸ Specs.candidates_eq_nil.mp hno⟩
    · exact .inr ⟨rfl, hcleared.2⟩

/-- A thread that the relaxed task may be sent to is one that the original
constraints call for. -/
theorem suits (h : RelaxedFrom cfg x y) (hw : w ∈ cfg.eligible y) : Suits cfg x w where
  preferred l hl hhas := by
    rcases h.preferred with he | ⟨-, hno⟩
    · rw [Specs.eligible_of_some (he.trans hl)] at hw
      exact Specs.getLabel_of_findLabel (Option.mem_toList.mp hw)
    · exact absurd hhas (hno l hl)
  notOn hno hout := by
    have hnone : y.preferredThread = none := by
      rcases h.preferred with he | ⟨hn, -⟩
      · cases hy : y.preferredThread with
        | none => rfl
        | some l =>
            rw [Specs.eligible_of_some hy, Specs.findLabel_eq_none.mpr (hno l (he ▸ hy))] at hw
            cases hw
      · exact hn
    rw [Specs.eligible_of_none hnone, Specs.mem_candidates] at hw
    rcases h.notOn with he | ⟨-, hall⟩
    · exact he ▸ hw.2
    · exact absurd hout hall

end RelaxedFrom

/-! ## One pass -/

/-- The dispatcher looks at the threads that the task at hand may be sent to, and at all
of them before it finds none. -/
def DispatcherPc.Aims (cfg : Specs) : DispatcherPc P → Prop
  | .select x best left _ _ =>
      x.preferredThread = none ∧ (∀ b, best = some b → b.1 ∈ cfg.candidates x) ∧
        (∀ v ∈ left, v ∈ cfg.candidates x) ∧ (best = none → left = cfg.candidates x)
  | .freeWorkers x w _ _ | .send x w _ _ => w ∈ cfg.eligible x
  | _ => True

theorem maxByKey_ne_none (best : Option (WorkerId × UInt32)) (v : WorkerId) (k : UInt32) :
    maxByKey best v k ≠ none := by
  unfold maxByKey
  repeat' split
  all_goals simp

theorem dispatcherNext_aims {p p' : DispatcherPc P} (hp : p.Aims cfg)
    (h : dispatcherNext cfg p m = some (p', op)) : p'.Aims cfg := by
  cases dispatcherNext_step h with
  | preferred _ hl hw =>
      rw [DispatcherPc.Aims, Specs.eligible_of_some hl, hw]
      exact List.mem_singleton_self _
  | noPreference _ hl => exact ⟨hl, nofun, fun _ hv => hv, fun _ => rfl⟩
  | @select x best v ws =>
      obtain ⟨hl, hbest, hleft, -⟩ := hp
      have hv : v ∈ cfg.candidates x := hleft v List.mem_cons_self
      refine ⟨hl, fun b hb => ?_, fun u hu => hleft u (List.mem_cons_of_mem _ hu),
        fun hn => absurd hn (maxByKey_ne_none _ _ _)⟩
      rcases maxByKey_eq (congrArg (Option.map Prod.fst) hb) with he | he
      · exact he ▸ hv
      · obtain ⟨b', hb', he'⟩ := Option.map_eq_some_iff.mp he
        exact he' ▸ hbest b' hb'
  | selected =>
      obtain ⟨hl, hbest, -⟩ := hp
      rw [DispatcherPc.Aims, Specs.eligible_of_none hl]
      exact hbest _ rfl
  | free => exact hp
  | _ => trivial

/-- What the dispatcher has was there before, or its constraints were relaxed because no
thread meets them. -/
theorem dispatcherNext_relaxes {p p' : DispatcherPc P} (hp : p.Aims cfg)
    (h : dispatcherNext cfg p m = some (p', op)) :
    ∀ y ∈ p'.list, y ∈ p.list ∨ y ∈ m.channel ∨
      (∃ x ∈ p.list, y = x.clearNotOn ∧ cfg.candidates x = []) ∨
      ∃ x ∈ p.list, ∃ l, y = x.removePreferredThread ∧ x.preferredThread = some l ∧
        cfg.findLabel l = none := by
  intro y hy
  cases dispatcherNext_step h with
  | @noThread x =>
      have hnone : cfg.candidates x = [] := (hp.2.2.2 rfl).symm
      simp only [DispatcherPc.list] at hy ⊢
      grind
  | _ =>
      simp only [DispatcherPc.list] at hy ⊢
      grind

theorem DispatcherPc.list_eq (p : DispatcherPc P) :
    p.list.map Task.id = ids (p.tasks : List (Task × Stage V P)) := by
  cases p <;> simp [list, tasks, ids, fresh, Function.comp_def]

namespace Pool

variable {s s' : (pool cfg prog).State} {a : (pool cfg prog).Action}

theorem Reachable.aims (h : Reachable s) : (Pool.dispatcher s).Aims cfg :=
  h.pc_invariant (i := .dispatcher) (I := fun p : DispatcherPc P => p.Aims cfg) trivial
    fun hn hi => dispatcherNext_aims hi hn

/-! ## The tasks of a submit call -/

/-- The task is as the user built it, with the label of the submit call if it has one. -/
def Submitted (prog : Program V P) (x : Task) : Prop :=
  x = prog.task x.id ∨ ∃ l, x = (prog.task x.id).setPreferredThread l

theorem Reachable.submitted (h : Reachable s) (e : CallerId) :
    ∀ y ∈ (Pool.caller s e).list, Submitted prog y := by
  refine h.pc_invariant (i := .caller e)
    (I := fun p : CallerPc V P => ∀ y ∈ p.list, Submitted prog y) nofun ?_
  intro c p p' o m hn hi y hy
  rcases callerNext_sends hn with ⟨sent, z, xs, rfl, rfl, -⟩ | ⟨-, hl⟩
  · exact hi y (List.mem_cons_of_mem z hy)
  · obtain ⟨t, rfl | ⟨l, -, rfl⟩⟩ := hl y hy
    · exact .inl rfl
    · exact .inr ⟨l, rfl⟩

theorem Reachable.submitted_of_send (h : Reachable s) (ho : Performs s a (.send x)) :
    Submitted prog x := by
  obtain ⟨⟨e, hi⟩, -⟩ := h.performs ho
  obtain ⟨q, hn⟩ := ho
  obtain ⟨i, c⟩ := a
  obtain rfl : i = .caller e := hi
  rcases callerNext_sends hn with ⟨sent, y, xs, hp, -, hy⟩ | ⟨hno, -⟩
  · refine h.submitted e x ?_
    rw [show Pool.caller s e = _ from hp, show x = y by simpa using hy]
    exact List.mem_cons_self
  · exact absurd rfl (hno x)

/-! ## From the submission to the worker -/

/-- The task is in the submission channel, in the list of the dispatcher, or in the
channel of a worker. -/
def Holding (s : (pool cfg prog).State) (y : Task) : Prop :=
  y ∈ s.mem.channel ∨ y ∈ (Pool.dispatcher s).list ∨ ∃ w, y ∈ s.mem.workerChannel w

/-- The task that was submitted as `x` is out of the hands of the callers, and what has
become of it. -/
structure Follows (x : Task) (s : (pool cfg prog).State) : Prop where
  owner : ∃ p : Place, (s.mem.cell x.id).owner = p.owner
  relaxed : ∀ y, Holding s y → y.id = x.id → RelaxedFrom cfg x y

/-- What the step puts in the list of the dispatcher or the channels. -/
theorem Reachable.holding_of_step (h : Reachable s) (hs : s.step a = some s')
    (hy : Holding s' y) : Holding s y ∨ Performs s a (.send y) ∨
      (∃ x, Holding s x ∧ y = x.clearNotOn ∧ cfg.candidates x = []) ∨
      ∃ x, Holding s x ∧ ∃ l, y = x.removePreferredThread ∧ x.preferredThread = some l ∧
        cfg.findLabel l = none := by
  obtain ⟨o, ho, hm⟩ := mem_of_step hs
  have old : y ∈ (Pool.dispatcher s).list → Holding s y := fun hy => .inr (.inl hy)
  rcases hy with hy | hy | ⟨w, hy⟩
  · rw [hm] at hy
    rcases Op.mem_channel hy with hy | rfl
    · exact .inl (.inl hy)
    · exact .inr (.inl ho)
  · rcases step_cases hs with ⟨q, o, rfl, hn, rfl⟩ | ⟨v, pends, q, o, rfl, hn, rfl⟩ |
      ⟨e, c, q, o, rfl, hn, rfl⟩
    · rw [dispatcher_move] at hy
      rcases dispatcherNext_relaxes h.aims hn y hy with hy | hy | ⟨x, hx, hc⟩ | ⟨x, hx, hc⟩
      · exact .inl (old hy)
      · exact .inl (.inl hy)
      · exact .inr (.inr (.inl ⟨x, .inr (.inl hx), hc⟩))
      · exact .inr (.inr (.inr ⟨x, .inr (.inl hx), hc⟩))
    · exact .inl (old (by rwa [dispatcher_move_worker] at hy))
    · exact .inl (old (by rwa [dispatcher_move_caller] at hy))
  · rw [hm] at hy
    rcases Op.mem_workerChannel hy with hy | rfl
    · exact .inl (.inr (.inr ⟨w, hy⟩))
    · -- the dispatcher has the task that it sends
      have hi : a.tid = .dispatcher := (h.performs ho).1
      obtain ⟨q, hn⟩ := ho
      obtain ⟨i, c⟩ := a
      subst hi
      obtain ⟨todo, remaining, hp, -⟩ := dispatcherNext_sendWorker (p := Pool.dispatcher s) hn
      exact .inl (old (by simp [hp, DispatcherPc.list]))

/-- A task that left the callers does not come back. -/
theorem owner_of_step (h : Reachable s) (hs : s.step a = some s') {t : TaskId}
    (ht : ∃ p : Place, (s.mem.cell t).owner = p.owner) :
    ∃ p : Place, (s'.mem.cell t).owner = p.owner := by
  obtain ⟨o, ho, hm⟩ := mem_of_step hs
  obtain ⟨p, hp⟩ := ht
  rcases Op.owner_cases (h.performs ho) h.inv.places t with he | hc
  · exact ⟨p, by rw [hm, he, hp]⟩
  · rw [← hm, hp] at hc
    generalize (s'.mem.cell t).owner = o₂ at hc ⊢
    cases p <;> cases hc
    case channel.recv => exact ⟨.dispatcher, rfl⟩
    case dispatcher.sendWorker w _ _ => exact ⟨.workerChannel w, rfl⟩
    case workerChannel.recvWorker w => exact ⟨.futures w, rfl⟩
    all_goals exact ⟨.settled, rfl⟩

/-- A caller does not send what another thread has. -/
theorem Follows.not_send (hf : Follows x s) (h : Reachable s) (hy : y.id = x.id) :
    ¬Performs s a (.send y) := by
  intro ho
  obtain ⟨⟨e, hi⟩, hat, -⟩ := h.performs ho
  obtain ⟨p, hp⟩ := hf.owner
  rw [← hy, hat.1, hi] at hp
  cases p <;> cases hp

theorem Follows.step (hf : Follows x s) (h : Reachable s) (hs : s.step a = some s') :
    Follows x s' where
  owner := owner_of_step h hs hf.owner
  relaxed y hy hid := by
    rcases h.holding_of_step hs hy with hy | ho | ⟨z, hz, rfl, hno⟩ | ⟨z, hz, l, rfl, hl, hno⟩
    · exact hf.relaxed y hy hid
    · exact absurd ho (hf.not_send h hid)
    · exact (hf.relaxed z hz hid).clearNotOn hno
    · exact (hf.relaxed z hz hid).removePreferredThread hl hno

/-- A task that is sent is in the submission channel only. -/
theorem Follows.of_send (h : Reachable s) (ho : Performs s a (.send x))
    (hs : s.step a = some s') : Follows x s' := by
  have h' : Reachable s' := .step a h hs trivial
  obtain ⟨o, ho', hm⟩ := mem_of_step hs
  obtain rfl := ho.unique ho'
  have howner : (s'.mem.cell x.id).owner = .channel := by simp [hm, Op.exec]
  refine ⟨⟨.channel, howner⟩, fun y hy hid => ?_⟩
  have nowhere : ∀ p : Place, p ≠ .settled → p ≠ .channel → count s' y.id p = 0 := by
    intro p hp hne
    rw [h'.count_place hp, hid, howner, if_neg]
    exact fun he => hne (Place.owner_injective (he.symm.trans rfl))
  rcases hy with hy | hy | ⟨w, hy⟩
  · -- the channel has it once
    have hx : x ∈ s'.mem.channel := by simp [hm, Op.exec]
    have hnodup : (s'.mem.channel.map Task.id).Nodup := by
      have hc := h'.inv.places.channel.holds.nodup
      simpa [Function.comp_def] using hc
    exact List.inj_on_of_nodup_map hnodup hy hx hid ▸ .refl y
  · have hzero := nowhere .dispatcher (by simp) (by simp)
    rw [count, ← DispatcherPc.list_eq] at hzero
    exact absurd (List.mem_map_of_mem hy) (List.count_eq_zero.mp hzero)
  · have hzero := nowhere (.workerChannel w) (by simp) (by simp)
    exact absurd (List.mem_map_of_mem hy) (List.count_eq_zero.mp hzero)

theorem Follows.suits (hf : Follows x s) (h : Reachable s) (ho : Performs s a (.sendWorker w y))
    (hid : y.id = x.id) : RelaxedFrom cfg x y ∧ Suits cfg x w := by
  have hi : a.tid = .dispatcher := (h.performs ho).1
  obtain ⟨q, hn⟩ := ho
  obtain ⟨i, c⟩ := a
  subst hi
  obtain ⟨todo, remaining, hp, -⟩ := dispatcherNext_sendWorker (p := Pool.dispatcher s) hn
  have hrel : RelaxedFrom cfg x y :=
    hf.relaxed y (.inr (.inl (by simp [hp, DispatcherPc.list]))) hid
  have haims := h.aims
  rw [hp] at haims
  exact ⟨hrel, hrel.suits haims⟩

/-- A task goes to a thread that the constraints it was submitted with call for.  Until
then it keeps its preferred label unless no thread carries it, and its `not_on` list
unless it excludes every thread. -/
theorem placement_respects_labels (s s₁ s' : (pool cfg prog).State) (a : (pool cfg prog).Action)
    (x : Task) (h : Reachable s) (ho : Performs s a (.send x)) (hs : s.step a = some s₁)
    (hr : System.Reach s₁ s') :
    Submitted prog x ∧ (∀ y, Holding s' y → y.id = x.id → RelaxedFrom cfg x y) ∧
      ∀ b w y, Performs s' b (.sendWorker w y) → y.id = x.id →
        RelaxedFrom cfg x y ∧ Suits cfg x w := by
  have h₁ : Reachable s₁ := .step a h hs trivial
  have hf : Follows x s' := by
    refine hr.invariant (I := Follows x) (.of_send h ho hs) ?_
    exact fun b hr₂ hf hb _ => hf.step (h₁.trans hr₂) hb
  exact ⟨h.submitted_of_send ho, hf.relaxed, fun b w y hb hid => hf.suits (h₁.trans hr) hb hid⟩

end Pool

/-! ## A task that prefers a missing thread -/

/-- A pool with one labelled thread and one without a label. -/
def Specs.partly : Specs := ⟨2, 1, ["cpu"]⟩

set_option maxRecDepth 4000

/-- The function is about to be sent. -/
def mislabelled : (pool Specs.partly (misplaced ["cpu"])).State :=
  (poolInit _ _).after [call 0 (.submitAll [0])]

/-- The label was dropped in the first pass, and the function is sent in the second. -/
def relabelled : (pool Specs.partly (misplaced ["cpu"])).State :=
  (mislabelled.after [call 0 .proceed]).after (call 0 .proceed :: List.replicate 17 dispatch)

/-- The thread that gets the function is not the one that its `not_on` list names. -/
theorem Pool.placement_respects_labels_relabelled :
    Performs relabelled dispatch
        (.sendWorker 1 ((misplaced ["cpu"]).task 0).removePreferredThread) ∧
      Specs.partly.Outside ["cpu"] 1 := by
  have hsend : Performs relabelled dispatch
      (.sendWorker 1 ((misplaced ["cpu"]).task 0).removePreferredThread) := ⟨_, rfl⟩
  obtain ⟨-, -, hall⟩ := placement_respects_labels mislabelled _ relabelled (call 0 .proceed)
    ((misplaced ["cpu"]).task 0) (.after _ .init) ⟨_, rfl⟩ rfl (.after _ .init)
  refine ⟨hsend, (hall dispatch 1 _ hsend rfl).2.notOn (fun l hl => ?_) ⟨1, by decide, nofun⟩⟩
  obtain rfl : "gpu" = l := Option.some.inj hl
  exact Specs.findLabel_eq_none.mp (by decide)

end MVSync
