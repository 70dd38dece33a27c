import MVSync.Pool.WakeUps

/-!
# Target selection

The threads that a task may be sent to are the one with its preferred label, or
all that its `not_on` list admits.  The dispatcher takes one with the most free
workers among them (`Specs.targetThread_mem`, `BestOf.maxByKey`).

A task for which there is no thread at all loses its preference and is put back
without another look.  When every preferred label exists and no `not_on` list
excludes all threads, that never happens: the tasks on their way to the workers
all have a thread they may be sent to (`Pool.Transit`).
-/

namespace MVSync

open Concurrency

variable {V P : Type} {cfg : Specs} {prog : Program V P} {m m' : Shared V P} {op : Op V P}
  {x : Task} {w : WorkerId} {free : WorkerId → UInt32}

/-- The threads that the target selection ranges over. -/
def Specs.eligible (cfg : Specs) (x : Task) : List WorkerId :=
  match x.preferredThread with
  | some l => (cfg.findLabel l).toList
  | none => cfg.candidates x

theorem Specs.eligible_of_some {l : Label} (h : x.preferredThread = some l) :
    cfg.eligible x = (cfg.findLabel l).toList := by
  simp [Specs.eligible, h]

theorem Specs.eligible_of_none (h : x.preferredThread = none) :
    cfg.eligible x = cfg.candidates x := by
  simp [Specs.eligible, h]

/-! ## The best thread -/

/-- `best` is a thread with the most free workers among `read`, and its
counter. -/
def BestOf (free : WorkerId → UInt32) (read : List WorkerId) : Option (WorkerId × UInt32) → Prop
  | none => read = []
  | some (w, k) => w ∈ read ∧ free w = k ∧ ∀ v ∈ read, free v ≤ k

theorem BestOf.none : BestOf free [] none := rfl

/-- One turn of `max_by_key`. -/
theorem BestOf.maxByKey {read : List WorkerId} {best : Option (WorkerId × UInt32)}
    (h : BestOf free read best) (w : WorkerId) :
    BestOf free (read ++ [w]) (maxByKey best w (free w)) := by
  cases best with
  | none =>
      obtain rfl : read = [] := h
      exact ⟨by simp, rfl, by simp⟩
  | some b =>
      obtain ⟨v, k⟩ := b
      obtain ⟨hv, hk, hall⟩ := h
      simp only [MVSync.maxByKey]
      split
      case isTrue hle =>
        refine ⟨by simp, rfl, fun u hu => ?_⟩
        rcases List.mem_append.mp hu with hu | hu
        · exact UInt32.le_trans (hall u hu) hle
        · exact List.mem_singleton.mp hu ▸ UInt32.le_refl _
      case isFalse hlt =>
        refine ⟨by simp [hv], hk, fun u hu => ?_⟩
        rcases List.mem_append.mp hu with hu | hu
        · exact hall u hu
        · rw [List.mem_singleton.mp hu]
          exact UInt32.le_of_lt (UInt32.not_le.mp hlt)

theorem BestOf.foldl {read ws : List WorkerId} {best : Option (WorkerId × UInt32)}
    (h : BestOf free read best) :
    BestOf free (read ++ ws) (ws.foldl (fun b w => MVSync.maxByKey b w (free w)) best) := by
  induction ws generalizing read best with
  | nil => simpa using h
  | cons w ws ih => simpa using ih (h.maxByKey w)

/-- The target thread is one of the threads that the task may be sent to, and has
the most free workers of them. -/
theorem Specs.targetThread_best (h : cfg.targetThread free x = some w) :
    w ∈ cfg.eligible x ∧ ∀ v ∈ cfg.eligible x, free v ≤ free w := by
  unfold Specs.targetThread at h
  split at h
  case h_1 l hl =>
    rw [eligible_of_some hl, h]
    simp
  case h_2 hl =>
    rw [eligible_of_none hl]
    obtain ⟨⟨v, k⟩, hf, rfl⟩ := Option.map_eq_some_iff.mp h
    have hb : BestOf free ([] ++ cfg.candidates x) _ := BestOf.foldl BestOf.none
    rw [hf] at hb
    obtain ⟨hv, rfl, hall⟩ := hb
    exact ⟨by simpa using hv, by simpa using hall⟩

/-! ## The threads of the pool -/

/-- The threads that the dispatcher may send the task at hand to. -/
def DispatcherPc.targets : DispatcherPc P → List WorkerId
  | .select _ best left _ _ => (best.map Prod.fst).toList ++ left
  | .freeWorkers _ w _ _ | .send _ w _ _ | .fetchSub w _ _ | .wakeWorker w _ _ => [w]
  | _ => []

theorem Specs.mem_threads_of_findLabel {l : Label} (h : cfg.findLabel l = some w) :
    w ∈ cfg.threads := List.mem_of_find?_eq_some h

theorem Specs.mem_threads_of_candidates (h : w ∈ cfg.candidates x) : w ∈ cfg.threads :=
  List.mem_of_mem_filter h

theorem Specs.mem_threads_of_eligible (h : w ∈ cfg.eligible x) : w ∈ cfg.threads := by
  unfold Specs.eligible at h
  split at h
  · exact mem_threads_of_findLabel (Option.mem_toList.mp h)
  · exact mem_threads_of_candidates h

theorem maxByKey_eq {best : Option (WorkerId × UInt32)} {v : WorkerId} {k : UInt32}
    (h : (maxByKey best v k).map Prod.fst = some w) : w = v ∨ best.map Prod.fst = some w := by
  unfold maxByKey at h
  repeat' split at h
  all_goals simp_all

/-- The dispatcher chooses among the threads of the pool. -/
theorem dispatcherNext_targets {p p' : DispatcherPc P}
    (h : dispatcherNext cfg p m = some (p', op)) :
    ∀ w ∈ p'.targets, w ∈ p.targets ∨ w ∈ cfg.threads := by
  intro w hw
  cases dispatcherNext_step h
  all_goals simp only [DispatcherPc.targets] at hw ⊢
  all_goals
    grind [maxByKey_eq, Specs.mem_threads_of_findLabel, Specs.mem_threads_of_candidates]

theorem dispatcherNext_sendWorker {p p' : DispatcherPc P}
    (h : dispatcherNext cfg p m = some (p', .sendWorker w x)) :
    ∃ todo remaining, p = .send x w todo remaining ∧ p' = .fetchSub w todo remaining := by
  cases dispatcherNext_step h with
  | send => exact ⟨_, _, rfl, rfl⟩
  | settle hs => cases settleNext_ofFuture hs
  | settled hs => cases settleNext_ofFuture hs

namespace Pool.Reachable

variable {s : (pool cfg prog).State}

theorem targets (h : Reachable s) : ∀ w ∈ (Pool.dispatcher s).targets, w ∈ cfg.threads := by
  refine h.pc_invariant (i := .dispatcher)
    (I := fun p : DispatcherPc P => ∀ w ∈ p.targets, w ∈ cfg.threads)
    (by simp [poolInit, DispatcherPc.targets]) ?_
  intro c p p' o m hn hi w hw
  exact (dispatcherNext_targets hn w hw).elim (hi w) id

/-- A task is only ever with a thread of the pool. -/
theorem mem_threads (h : Reachable s) : ∀ t w,
    (s.mem.cell t).owner = .workerChannel w ∨ (s.mem.cell t).owner = .thread (.worker w) →
      w ∈ cfg.threads := by
  refine h.invariant (I := fun s => ∀ t w, (s.mem.cell t).owner = .workerChannel w ∨
    (s.mem.cell t).owner = .thread (.worker w) → w ∈ cfg.threads)
    (by rintro t w (ht | ht) <;> cases ht) ?_
  intro s s' a hr hi hs _ t w ho
  have hr : Reachable s := hr
  obtain ⟨q, o, hn, rfl⟩ := System.State.step_cases hs
  have hpre : o.Pre prog a.tid s.mem := hr.pre hn
  rw [System.State.move_mem, show (pool cfg prog).exec o s.mem = o.exec s.mem from rfl] at ho
  rcases Op.owner_cases hpre hr.inv.places t with he | hc
  · exact hi t w (by rwa [he] at ho)
  · generalize ho₁ : (s.mem.cell t).owner = o₁ at hc
    generalize ((o.exec s.mem).cell t).owner = o₂ at hc ho
    cases hc with
    | sendWorker v x hx =>
        obtain rfl : v = w := by simpa using ho
        obtain ⟨i, c⟩ := a
        obtain ⟨rfl, -⟩ := hpre
        obtain ⟨todo, remaining, hp, -⟩ := dispatcherNext_sendWorker hn
        refine hr.targets v ?_
        rw [show Pool.dispatcher s = _ from hp]
        simp [DispatcherPc.targets]
    | recvWorker v =>
        obtain rfl : v = w := by simpa using ho
        exact hi t v (.inl ho₁)
    | _ => simp at ho

end Pool.Reachable

/-! ## Tasks on their way -/

/-- The tasks that the dispatcher has. -/
def DispatcherPc.list : DispatcherPc P → List Task
  | .top xs | .wait xs => xs
  | .scan todo remaining | .fetchSub _ todo remaining | .wakeWorker _ todo remaining =>
      todo ++ remaining
  | .canExecute x _ todo remaining | .isPanicked x todo remaining | .getPanic x todo remaining
  | .isCancelled x todo remaining | .isCancelledSelf x todo remaining
  | .replace x _ _ _ todo remaining | .select x _ _ todo remaining
  | .freeWorkers x _ todo remaining | .send x _ todo remaining
  | .settle x _ _ todo remaining => x :: (todo ++ remaining)
  | .exited | .panicked => []

/-- What the dispatcher has was there before, or lost the preference that no
thread meets. -/
theorem dispatcherNext_list {p p' : DispatcherPc P} (h : dispatcherNext cfg p m = some (p', op)) :
    ∀ y ∈ p'.list, y ∈ p.list ∨ y ∈ m.channel ∨
      (∃ x ∈ p.list, y = x.clearNotOn) ∨
      ∃ x ∈ p.list, y = x.removePreferredThread ∧ cfg.eligible x = [] := by
  intro y hy
  cases dispatcherNext_step h
  all_goals simp only [DispatcherPc.list] at hy ⊢
  all_goals grind [Specs.eligible]

/-- The tasks that a submit call has not sent yet. -/
def CallerPc.list : CallerPc V P → List Task
  | .sending _ xs => xs
  | _ => []

/-- The label that a call gives to its tasks. -/
def CallerInput.label : CallerInput → Option Label
  | .submitOn _ l | .submitAllOn _ l => some l
  | _ => none

@[simp] theorem Taker.resume_list (k : Taker) (t : TaskId) :
    (k.resume t : CallerPc V P).list = [] := by
  cases k <;> rfl

/-- A submit call gives its label to the tasks, if it has one. -/
theorem CallerInput.label_of_submits {c : CallerInput} {all : Bool} {f : Task → Task}
    {ts : List TaskId} (h : c.submits = some (all, f, ts)) (x : Task) :
    f x = x ∨ ∃ l, c.label = some l ∧ f x = x.setPreferredThread l := by
  cases c with
  | submit t | submitAll ts =>
      cases h
      exact .inl rfl
  | submitOn t l | submitAllOn ts l =>
      cases h
      exact .inr ⟨l, rfl, rfl⟩
  | _ => cases h

/-- A caller sends the next task, or what it has to send next comes from the
user. -/
theorem callerNext_sends {e : CallerId} {c : CallerInput} {p p' : CallerPc V P}
    (h : callerNext cfg prog e c p m = some (p', op)) :
    (∃ sent y xs, p = .sending sent (y :: xs) ∧ p' = .sending true xs ∧ op = .send y) ∨
      (∀ y, op ≠ .send y) ∧ ∀ y ∈ p'.list, ∃ t, y = prog.task t ∨
        ∃ l, c.label = some l ∧ y = (prog.task t).setPreferredThread l := by
  have future : op.ofFuture = true → ∀ y, op ≠ .send y := by
    rintro ho y rfl
    cases ho
  cases callerNext_step h with
  | send => exact .inl ⟨_, _, _, rfl, rfl, rfl⟩
  | submit hc =>
      refine .inr ⟨fun _ => nofun, fun y hy => ?_⟩
      obtain ⟨t, -, rfl⟩ := List.mem_map.mp hy
      exact ⟨t, CallerInput.label_of_submits hc _⟩
  | wake | polled => exact .inr ⟨fun _ => nofun, by simp⟩
  | more hp | pending hp | err hp | ready hp =>
      exact .inr ⟨future (pollNext_ofFuture hp), fun _ => nofun⟩
  | settle hs | settled hs => exact .inr ⟨future (settleNext_ofFuture hs), fun _ => nofun⟩
  | _ => exact .inr ⟨fun _ => nofun, fun _ => nofun⟩

/-! ## Every task has a thread -/

/-- Every preferred label names a thread, and no `not_on` list excludes all
threads. -/
structure Program.Placeable (cfg : Specs) (prog : Program V P) : Prop where
  preferred : ∀ t l, prog.preferredThread t = some l → cfg.findLabel l ≠ none
  notOn : ∀ t, cfg.candidates (prog.task t) ≠ []

/-- A submit call on a label names a thread. -/
def Pool.labelled : (pool cfg prog).Action → Bool
  | ⟨.caller _, c⟩ => (CallerInput.label c).all fun l => (cfg.findLabel l).isSome
  | _ => true

/-- The tasks on their way to the workers have a thread they may be sent to. -/
structure Pool.Transit (s : (pool cfg prog).State) : Prop where
  dispatcher : ∀ y ∈ (dispatcher s).list, cfg.eligible y ≠ []
  channel : ∀ y ∈ s.mem.channel, cfg.eligible y ≠ []
  caller : ∀ e, ∀ y ∈ (caller s e).list, cfg.eligible y ≠ []

theorem Specs.eligible_setPreferredThread {l : Label} (hl : cfg.findLabel l ≠ none) (x : Task) :
    cfg.eligible (x.setPreferredThread l) ≠ [] := by
  rw [eligible_of_some (l := l) rfl]
  simpa [Option.toList_eq_nil_iff] using hl

theorem Program.Placeable.eligible (hp : prog.Placeable cfg) (t : TaskId) :
    cfg.eligible (prog.task t) ≠ [] := by
  unfold Specs.eligible
  split
  case h_1 l hl => simpa [Option.toList_eq_nil_iff] using hp.preferred t l hl
  case h_2 => exact hp.notOn t

/-- Without its `not_on` list, a task may be sent to every thread. -/
theorem Specs.eligible_clearNotOn (hc : cfg.threadCount ≠ 0) (hx : cfg.eligible x ≠ []) :
    cfg.eligible x.clearNotOn ≠ [] := by
  cases hp : x.preferredThread with
  | some l =>
      have hp' : x.clearNotOn.preferredThread = some l := hp
      rw [eligible_of_some hp] at hx
      rwa [eligible_of_some hp']
  | none =>
      have hall : cfg.candidates x.clearNotOn = cfg.threads := by
        refine List.filter_eq_self.mpr fun w _ => ?_
        unfold Specs.admits
        split <;> simp [Task.clearNotOn]
      have hp' : x.clearNotOn.preferredThread = none := hp
      rw [eligible_of_none hp', hall]
      have hpos : cfg.threadCount.toNat ≠ 0 := fun h => hc (UInt32.toNat_inj.mp h)
      simpa [Specs.threads] using hpos

namespace Pool

variable {s s' : (pool cfg prog).State} {a : (pool cfg prog).Action}

theorem Transit.step (hc : cfg.threadCount ≠ 0) (hp : prog.Placeable cfg) (h : Transit s)
    (hr : Reachable s) (ha : labelled a = true) (hs : s.step a = some s') : Transit s' := by
  have channel : ∀ {i : Tid} {o : Op V P}, o.Pre prog i s.mem → (∀ e, i ≠ .caller e) →
      ∀ y ∈ (o.exec s.mem).channel, cfg.eligible y ≠ [] := by
    intro i o hpre hi y hy
    rcases Op.mem_channel hy with hy | rfl
    · exact h.channel y hy
    · obtain ⟨⟨e, rfl⟩, -⟩ := hpre
      exact absurd rfl (hi e)
  rcases step_cases hs with ⟨q, o, rfl, hn, rfl⟩ | ⟨v, pends, q, o, rfl, hn, rfl⟩ |
    ⟨e, c, q, o, rfl, hn, rfl⟩
  · have hpre := (dispatcherNext_spec hr.inv hr.dispatcher hn).1
    refine ⟨fun y hy => ?_, channel hpre fun _ => nofun,
      fun e y hy => h.caller e y (by simpa using hy)⟩
    rw [dispatcher_move] at hy
    rcases dispatcherNext_list hn y hy with hy | hy | ⟨x, hx, rfl⟩ | ⟨x, hx, rfl, hno⟩
    · exact h.dispatcher y hy
    · exact h.channel y hy
    · exact Specs.eligible_clearNotOn hc (h.dispatcher x hx)
    · exact absurd hno (h.dispatcher x hx)
  · have hpre := (workerNext_spec hr.inv (hr.worker v) hn).1
    exact ⟨fun y hy => h.dispatcher y (by simpa using hy), channel hpre fun _ => nofun,
      fun e y hy => h.caller e y (by simpa using hy)⟩
  · have hq : (∀ y ∈ q.list, cfg.eligible y ≠ []) ∧ ∀ y, o = .send y → cfg.eligible y ≠ [] := by
      rcases callerNext_sends hn with ⟨sent, y, xs, hpc, rfl, rfl⟩ | ⟨ho, hl⟩
      · have hxs : ∀ z ∈ y :: xs, cfg.eligible z ≠ [] := fun z hz => h.caller e z (by rwa [hpc])
        refine ⟨fun z hz => hxs z (List.mem_cons_of_mem _ hz), ?_⟩
        rintro z ⟨⟩
        exact hxs y List.mem_cons_self
      · refine ⟨fun y hy => ?_, fun y hy => absurd hy (ho y)⟩
        obtain ⟨t, rfl | ⟨l, hl, rfl⟩⟩ := hl y hy
        · exact hp.eligible t
        · have hsome : (cfg.findLabel l).isSome = true := by
            have hall : (CallerInput.label c).all (fun l => (cfg.findLabel l).isSome) = true := ha
            rwa [hl] at hall
          exact Specs.eligible_setPreferredThread (Option.isSome_iff_ne_none.mp hsome) _
    refine ⟨fun y hy => h.dispatcher y (by simpa using hy), fun y hy => ?_, fun e' y hy => ?_⟩
    · rcases Op.mem_channel hy with hy | rfl
      · exact h.channel y hy
      · exact hq.2 y rfl
    · by_cases he : e' = e
      · subst he
        rw [caller_move] at hy
        exact hq.1 y hy
      · rw [caller_move_of_ne s o he] at hy
        exact h.caller e' y hy

theorem Transit.init : Transit (poolInit cfg prog) := by
  refine ⟨?_, ?_, fun _ => ?_⟩ <;> exact fun _ => nofun

end Pool

end MVSync
