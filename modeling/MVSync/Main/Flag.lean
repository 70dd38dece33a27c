import MVSync.Main.Finished

/-!
# The end flag goes up

`end_main_thread` tests the flag and stores 1, and the end of a loop stores 2
without the lock.  A loop that ends between the two has its 2 overwritten
(`Crosses`).  The flag then stays at 1, and no main thread is registered any more
(`Refuses`).

In every other run the flag of a worker only goes up.
-/

namespace MVSync.Main

open Concurrency

variable {P : Type} {s s' : (main P).State} {a : (main P).Action} {m : Shared P} {g : WorkerId}
  {o : Op P} {i : Tid}

/-! ## The store of `end_main_thread` -/

/-- The user code of a thread. -/
def Tid.call? : (i : Tid) → Tid.Pc P i → Option CallPc
  | .user _, call => some call
  | .run _, .poll _ call _ _ => some call
  | .await _, .poll call => some call
  | _, _ => none

/-- The thread has tested the flag of a worker in `end_main_thread`, and stores 1
next. -/
def Ending (s : (main P).State) (i : Tid) (g : WorkerId) : Prop :=
  i.call? (s.pc i) = some (.storeEnd g)

theorem CallStep.toStoreEnd {call : CallPc} (h : CallStep i m call (.storeEnd g) o) :
    o = .tau ∧ (m.workers g).endFlag = 0 := by
  generalize hc : CallPc.storeEnd g = call' at h
  cases h with
  | endMain _ he =>
      cases hc
      exact ⟨rfl, he⟩
  | @wakeSend k => cases k <;> cases hc
  | @fail k => cases k <;> cases hc
  | _ => cases hc

theorem CallStep.storesEnd {call call' : CallPc} {v : Nat}
    (h : CallStep i m call call' (.storeEnd g v)) : call = .storeEnd g ∧ v = 1 := by
  cases h with
  | storeEnd => exact ⟨rfl, rfl⟩

theorem CallStep.ofStoreEnd {call : CallPc} (h : CallStep i m (.storeEnd g) call o) :
    o = .storeEnd g 1 := by
  cases h with
  | storeEnd => rfl

/-- User code that is outside of the modelled calls. -/
def Outside (call : Option CallPc) : Prop := ∀ c, call = some c → ∃ last, c = .code last

theorem outside_none : Outside none := fun _ h => by cases h

theorem outside_code (last : Option Outcome) : Outside (some (.code last)) :=
  fun _ h => ⟨last, (Option.some.inj h).symm⟩

theorem Outside.ne (h : Outside (some (.storeEnd g))) : False := by
  obtain ⟨last, hc⟩ := h _ rfl
  cases hc

/-- A step is one of user code, or it is outside of the calls before and after. -/
theorem Tid.Step.call {p p' : Tid.Pc P i} (h : i.Step m p p' o) :
    (∃ c c', i.call? p = some c ∧ i.call? p' = some c' ∧ CallStep i m c c' o) ∨
      Outside (i.call? p) ∧ Outside (i.call? p') ∧ ∀ g, o ≠ .storeEnd g 1 := by
  cases i with
  | user k => exact .inl ⟨p, p', rfl, rfl, h⟩
  | run k =>
      have h' : RunStep k m p p' o := h
      cases h' with
      | user hc => exact .inl ⟨_, _, rfl, rfl, hc⟩
      | poll => exact .inr ⟨outside_none, outside_code _, by simp⟩
      | pending => exact .inr ⟨outside_code _, outside_none, by simp⟩
      | ready => exact .inr ⟨outside_code _, outside_none, by simp⟩
      | panics => exact .inr ⟨outside_code _, outside_none, by simp⟩
      | writes => exact .inr ⟨outside_code _, outside_code _, by simp⟩
      | _ => exact .inr ⟨outside_none, outside_none, by simp⟩
  | await f =>
      have h' : AwaitStep f m p p' o := h
      cases h' with
      | user hc => exact .inl ⟨_, _, rfl, rfl, hc⟩
      | poll => exact .inr ⟨outside_none, outside_code _, by simp⟩
      | pending => exact .inr ⟨outside_code _, outside_none, by simp⟩
      | ends => exact .inr ⟨outside_code _, outside_none, by simp⟩
      | start _ => exact .inr ⟨outside_none, outside_none, by simp⟩
      | wake _ => exact .inr ⟨outside_none, outside_none, by simp⟩

/-- A thread gets to the store if the flag is down. -/
theorem Tid.Step.toStoreEnd {p p' : Tid.Pc P i} (h : i.Step m p p' o)
    (hp : i.call? p' = some (.storeEnd g)) : o = .tau ∧ (m.workers g).endFlag = 0 := by
  rcases h.call with ⟨c, c', -, hc', hcall⟩ | ⟨-, hout, -⟩
  · obtain rfl := Option.some.inj (hc'.symm.trans hp)
    exact hcall.toStoreEnd
  · exact absurd (hp ▸ hout) Outside.ne

theorem Op.exec_storeEnd (g : WorkerId) (v : Nat) (m : Shared P) :
    (((Op.storeEnd g v).exec m).workers g).endFlag = v := by
  simp [Op.exec]

/-- Who stores 1 is at the store. -/
theorem Tid.Step.storesEnd {p p' : Tid.Pc P i} (h : i.Step m p p' (.storeEnd g 1)) :
    i.call? p = some (.storeEnd g) := by
  rcases h.call with ⟨c, c', hc, -, hcall⟩ | ⟨-, -, ho⟩
  · obtain ⟨rfl, -⟩ := hcall.storesEnd
    exact hc
  · exact absurd rfl (ho g)

/-- A thread at the store only stores. -/
theorem Tid.Step.ofStoreEnd {p p' : Tid.Pc P i} (h : i.Step m p p' o)
    (hp : i.call? p = some (.storeEnd g)) : o = .storeEnd g 1 := by
  rcases h.call with ⟨c, c', hc, -, hcall⟩ | ⟨hout, -, -⟩
  · obtain rfl := Option.some.inj (hc.symm.trans hp)
    exact hcall.ofStoreEnd
  · exact absurd (hp ▸ hout) Outside.ne

/-- What a thread knows, its user code knows. -/
theorem Tid.Knows.call {p : Tid.Pc P i} {c : CallPc} (h : i.Knows m p)
    (hp : i.call? p = some c) : c.Knows m i := by
  cases i with
  | user k =>
      obtain rfl := Option.some.inj hp
      exact h
  | run k =>
      have h' : RunPc.Knows m k p := h
      cases p with
      | poll x call kept todo =>
          obtain rfl := Option.some.inj hp
          exact h'.2
      | _ => cases hp
  | await f =>
      cases p with
      | poll call =>
          obtain rfl := Option.some.inj hp
          exact h
      | _ => cases hp

/-- A thread at the store holds the lock, and the worker is in `MVSync.worker`. -/
theorem Ending.locked (he : Ending s i g) (h : Reachable s) :
    s.mem.writer = some i ∧ s.mem.worker = some g := (h.hold.loc i).call he

/-- A thread at the store is not blocked. -/
theorem Ending.next (he : Ending s i g) :
    ∃ (a : (main P).Action) (q : Tid.Pc P a.tid),
      a.tid = i ∧ s.next a = some (q, .storeEnd g 1) := by
  cases i with
  | user k =>
      have hp : s.pc (.user k) = CallPc.storeEnd g := Option.some.inj he
      refine ⟨⟨.user k, .proceed⟩, .unlock .returned (.ended g), rfl, ?_⟩
      simp [System.State.next, hp, main, callNext]
  | run k =>
      have he' : Tid.call? (.run k) (run s k) = some (.storeEnd g) := he
      cases hr : run s k with
      | poll x call kept todo =>
          rw [hr] at he'
          obtain rfl := Option.some.inj he'
          have hp : s.pc (.run k) = RunPc.poll x (.storeEnd g) kept todo := hr
          refine ⟨⟨.run k, .user .proceed⟩, .poll x (.unlock .returned (.ended g)) kept todo,
            rfl, ?_⟩
          simp [System.State.next, hp, main, runNext, callNext]
      | _ =>
          rw [hr] at he'
          cases he'
  | await f =>
      have he' : Tid.call? (.await f) (await s f) = some (.storeEnd g) := he
      cases hr : await s f with
      | poll call =>
          rw [hr] at he'
          obtain rfl := Option.some.inj he'
          have hp : s.pc (.await f) = AwaitPc.poll (.storeEnd g) := hr
          refine ⟨⟨.await f, .user .proceed⟩, .poll (.unlock .returned (.ended g)), rfl, ?_⟩
          simp [System.State.next, hp, main, awaitNext, callNext]
      | _ =>
          rw [hr] at he'
          cases he'

theorem Ending.stays (he : Ending s i g) (hi : i ≠ a.tid) (hs : s.step a = some s') :
    Ending s' i g := by
  obtain ⟨q, o, -, rfl⟩ := System.State.step_cases hs
  unfold Ending
  rwa [System.State.move_pc_of_ne s q o hi]

/-- A thread at the store was there, or it has seen that the flag is down. -/
theorem Ending.of_step (he : Ending s' i g) (hs : s.step a = some s') :
    i ≠ a.tid ∧ Ending s i g ∨ (s.mem.workers g).endFlag = 0 ∧ s'.mem = s.mem := by
  obtain ⟨q, o, hn, rfl⟩ := System.State.step_cases hs
  by_cases hi : i = a.tid
  · subst hi
    have hstep : a.tid.Step s.mem (s.pc a.tid) q o := next_step hn
    have hp : a.tid.call? q = some (.storeEnd g) := by simpa [Ending] using he
    obtain ⟨rfl, hf⟩ := hstep.toStoreEnd hp
    exact .inr ⟨hf, rfl⟩
  · unfold Ending at he
    rw [System.State.move_pc_of_ne s q o hi] at he
    exact .inl ⟨hi, he⟩

/-! ## Runs in which the flag goes up -/

/-- The end of a loop stores 2 between the test and the store of `end_main_thread`. -/
def Crosses (s : (main P).State) (a : (main P).Action) : Prop :=
  ∃ g q i, s.next a = some (q, .storeEnd g 2) ∧ Ending s i g

/-- A thread at the store finds the flag that it has tested. -/
def Unended (s : (main P).State) : Prop := ∀ i g, Ending s i g → (s.mem.workers g).endFlag = 0

theorem Unended.step (hu : Unended s) (h : Reachable s) (ha : ¬Crosses s a)
    (hs : s.step a = some s') : Unended s' := by
  intro i g he
  rcases he.of_step hs with ⟨hi, he'⟩ | ⟨hf, hm⟩
  · obtain ⟨q, o, hn, rfl⟩ := System.State.step_cases hs
    have hpre : o.Pre a.tid s.mem := (next_step hn).pre h.inv (h.hold.loc a.tid)
    rcases Op.endFlag h.inv g with hsame | ho
    · exact hsame.trans (hu i g he')
    · rw [ho] at hpre hn
      rcases hpre with ⟨-, hw, -⟩ | ⟨hv, -, -⟩
      · exact absurd (Option.some.inj ((he'.locked h).1.symm.trans hw)) hi
      · exact absurd ⟨g, q, i, hv ▸ hn, he'⟩ ha
  · rw [hm]
    exact hf

/-- A flag is 0, 1 or 2. -/
theorem Reachable.endFlag_le (h : Reachable s) (g : WorkerId) :
    (s.mem.workers g).endFlag ≤ 2 := by
  refine h.invariant (I := fun s => (s.mem.workers g).endFlag ≤ 2) (Nat.zero_le 2) ?_
  intro s s' a (hr : Reachable s) hle hs _
  obtain ⟨q, o, -, hpre, rfl⟩ := hr.step_cases hs
  rcases hpre.endFlag hr.inv g with he | ⟨-, he⟩ | ⟨-, -, he⟩
  · exact Nat.le_trans (Nat.le_of_eq he) hle
  · exact Nat.le_of_eq he
  · exact Nat.le_trans (Nat.le_of_eq he) (by decide)

theorem Unended.endFlag_le (hu : Unended s) (h : Reachable s) (hs : s.step a = some s')
    (g : WorkerId) : (s.mem.workers g).endFlag ≤ (s'.mem.workers g).endFlag := by
  obtain ⟨q, o, hstep, hpre, rfl⟩ := h.step_cases hs
  show _ ≤ ((o.exec s.mem).workers g).endFlag
  rcases Op.endFlag h.inv g with he | ho
  · exact Nat.le_of_eq he.symm
  · rw [ho] at hpre hstep
    rcases hpre with ⟨hv, -⟩ | ⟨hv, -⟩
    · rw [hv] at hstep
      have hf := hu a.tid g hstep.storesEnd
      exact Nat.le_trans (Nat.le_of_eq hf) (Nat.zero_le _)
    · exact Nat.le_trans (h.endFlag_le g) (Nat.le_of_eq hv.symm)

/-- Between two states no flag goes down, and a main thread that is finished stays
so, and can be replaced, as long as no other one was registered. -/
structure Upwards (s s' : (main P).State) : Prop where
  flags : ∀ g, (s.mem.workers g).endFlag ≤ (s'.mem.workers g).endFlag
  bound : ∀ g, (s'.mem.workers g).endFlag ≤ 2
  finished : ∀ g, s.mem.worker = some g → s.mem.mainThreadFinished = true →
    s'.mem.worker = some g → s'.mem.mainThreadFinished = true
  accepts : ∀ g, s.mem.worker = some g → s.mem.mainThreadFinished = true →
    s'.mem.worker = some g → ∀ i c x endWhenDone,
      callNext i c (.check (.registerMainThread x endWhenDone)) s'.mem =
        some (.replaceWorker x endWhenDone, .tau)

theorem Shared.mainThreadFinished_iff (hg : m.worker = some g) :
    m.mainThreadFinished = true ↔ 1 < (m.workers g).endFlag := by
  simp [Shared.mainThreadFinished, hg, WorkerThread.finished]

/-- Flags that do not go down are enough. -/
theorem Upwards.of_flags (h : Reachable s')
    (hle : ∀ g, (s.mem.workers g).endFlag ≤ (s'.mem.workers g).endFlag) : Upwards s s' := by
  have hfin : ∀ g, s.mem.worker = some g → s.mem.mainThreadFinished = true →
      s'.mem.worker = some g → s'.mem.mainThreadFinished = true := by
    intro g hw hf hw'
    rw [Shared.mainThreadFinished_iff hw] at hf
    rw [Shared.mainThreadFinished_iff hw']
    exact Nat.lt_of_lt_of_le hf (hle g)
  refine ⟨hle, h.endFlag_le, hfin, fun g hw hf hw' i c x b => ?_⟩
  simp [callNext, hfin g hw hf hw']

/-! ## A flag that goes back -/

/-- The loop has stored 2, and a thread is about to store 1. -/
structure Doomed (s : (main P).State) (i : Tid) (g : WorkerId) : Prop where
  ending : Ending s i g
  flag : (s.mem.workers g).endFlag = 2
  stored : run s g = .drop ∨ run s g = .returned

/-- The loop has ended, and the flag says that it has not. -/
structure Refuses (s : (main P).State) (g : WorkerId) : Prop where
  worker : s.mem.worker = some g
  flag : (s.mem.workers g).endFlag = 1
  stored : run s g = .drop ∨ run s g = .returned

/-- No step gets a worker out of it. -/
theorem Refuses.step (hk : Refuses s g) (h : Reachable s) (hs : s.step a = some s') :
    Refuses s' g := by
  obtain ⟨hw, hf, hst⟩ := hk
  rcases h.step_run g hs with ⟨o, -, hrun, -, hm⟩ | ⟨o, hne, hpre, hrun, -, hm⟩
  · obtain ⟨rfl, hret⟩ := hrun.stored hst
    refine ⟨?_, ?_, .inr hret⟩
    · rw [hm]
      exact hw
    · simpa [hm, Op.exec] using hf
  · refine ⟨?_, ?_, hrun.symm ▸ hst⟩
    · rw [hm, Op.exec_worker ?_]
      · exact hw
      · rintro b rfl
        have hfin := (Shared.mainThreadFinished_iff hw).mp hpre.2
        simp [hf] at hfin
    · rw [hm]
      rcases hpre.endFlag h.inv g with he | ⟨he, -⟩ | ⟨-, -, he⟩
      · exact he.trans hf
      · exact absurd he hne
      · exact he

/-- The worker waits for the store of 1, and refuses after it. -/
theorem Doomed.step (hd : Doomed s i g) (h : Reachable s) (hs : s.step a = some s') :
    Doomed s' i g ∨ Refuses s' g := by
  obtain ⟨he, hf, hst⟩ := hd
  obtain ⟨hwriter, hw⟩ := he.locked h
  have hst' : run s' g = .drop ∨ run s' g = .returned := by
    rcases h.step_run g hs with ⟨o, -, hrun, -⟩ | ⟨o, -, -, hrun, -⟩
    · exact .inr (hrun.stored hst).2
    · exact hrun.symm ▸ hst
  obtain ⟨q, o, hstep, hpre, rfl⟩ := h.step_cases hs
  by_cases hi : i = a.tid
  · subst hi
    obtain rfl := hstep.ofStoreEnd he
    exact .inr ⟨hw, Op.exec_storeEnd g 1 s.mem, hst'⟩
  · refine .inl ⟨he.stays hi hs, ?_, hst'⟩
    show ((o.exec s.mem).workers g).endFlag = 2
    rcases hpre.endFlag h.inv g with hsame | ⟨-, h2⟩ | ⟨hwr, -⟩
    · exact hsame.trans hf
    · exact h2
    · exact absurd (Option.some.inj (hwriter.symm.trans hwr)) hi

theorem Crosses.doomed (ha : Crosses s a) (h : Reachable s) (hs : s.step a = some s') :
    ∃ g i, Doomed s' i g := by
  obtain ⟨g, q, i, hn, he⟩ := ha
  have hstep : a.tid.Step s.mem (s.pc a.tid) q (.storeEnd g 2) := next_step hn
  have hi : i ≠ a.tid := by
    rintro rfl
    cases hstep.ofStoreEnd he
  have htid : a.tid = .run g := by
    rcases hstep.pre h.inv (h.hold.loc a.tid) with ⟨hv, -⟩ | ⟨-, ht, -⟩
    · cases hv
    · exact ht
  obtain ⟨q', o, hn', rfl⟩ := System.State.step_cases hs
  obtain ⟨rfl, rfl⟩ := Prod.mk.inj (Option.some.inj (hn.symm.trans hn'))
  refine ⟨g, i, he.stays hi hs, Op.exec_storeEnd g 2 s.mem, .inl ?_⟩
  obtain ⟨k, c⟩ := a
  cases htid
  exact (run_move s _ g q).trans (RunStep.storesEnd hstep)

/-- The store of 1 comes after the store of 2. -/
theorem Doomed.refuses (hd : Doomed s i g) (h : Reachable s) :
    ∃ (a : (main P).Action) (s' : (main P).State), s.step a = some s' ∧ Refuses s' g := by
  obtain ⟨a, q, -, hn⟩ := hd.ending.next
  have hs : s.step a = some (s.move a.tid q (.storeEnd g 1)) := System.State.step_of_next hn
  refine ⟨a, _, hs, ?_⟩
  rcases hd.step h hs with hd' | hk
  · have hf := hd'.flag
    rw [step_mem hn hs, Op.exec_storeEnd] at hf
    cases hf
  · exact hk

/-- In a run in which no loop ends between the test and the store of
`end_main_thread`, the flag only goes up.  In any other run it goes back from 2 to 1,
and no main thread is registered after it. -/
theorem endFlag_rises :
    (∀ s s' : (main P).State, System.ReachVia (fun s a _ => ¬Crosses s a) init s →
        System.ReachVia (fun s a _ => ¬Crosses s a) s s' → Upwards s s') ∧
      ∀ (s : (main P).State) (a : (main P).Action) (s' : (main P).State), Reachable s →
        s.step a = some s' → Crosses s a →
          ∃ i g, Doomed s' i g ∧ ∀ s'', System.Reach s' s'' →
            Refuses s'' g ∨ Doomed s'' i g ∧
              ∃ b s₁, s''.step b = some s₁ ∧ Refuses s₁ g := by
  have unended : ∀ s : (main P).State, System.ReachVia (fun s a _ => ¬Crosses s a) init s →
      Unended s := by
    intro s h
    refine h.invariant (I := Unended) ?_ fun a hr hu hs ha => hu.step hr.reach ha hs
    intro i g he
    cases i <;> cases he
  refine ⟨fun s s' h hs => .of_flags (h.trans hs).reach fun g => ?_, fun s a s' h hs ha => ?_⟩
  · induction hs with
    | init => exact Nat.le_refl _
    | step a hr hs _ ih =>
        have hr' := h.trans hr
        exact Nat.le_trans ih ((unended _ hr').endFlag_le hr'.reach hs g)
  · obtain ⟨g, i, hd⟩ := ha.doomed h hs
    have h' : Reachable s' := .step a h hs trivial
    refine ⟨i, g, hd, fun s'' hr => ?_⟩
    have hstays : Refuses s'' g ∨ Doomed s'' i g := by
      induction hr with
      | init => exact .inr hd
      | step b hr hs _ ih =>
          rcases ih with hk | hd
          · exact .inl (hk.step (h'.trans hr) hs)
          · exact (hd.step (h'.trans hr) hs).symm
    exact hstays.imp_right fun hd => ⟨hd, hd.refuses (h'.trans hr)⟩

/-- A flag that is 2 stays so if no thread is between the test and the store. -/
theorem Reachable.endFlag_stays (h : Reachable s) (hf : (s.mem.workers g).endFlag = 2)
    (hne : ∀ j, ¬Ending s j g) (hs : System.Reach s s') :
    (s'.mem.workers g).endFlag = 2 ∧ ∀ j, ¬Ending s' j g := by
  induction hs with
  | init => exact ⟨hf, hne⟩
  | step a hr hs _ ih =>
      obtain ⟨hf, hne⟩ := ih
      have hr' : Reachable _ := h.trans hr
      obtain ⟨q, o, hstep, hpre, rfl⟩ := hr'.step_cases hs
      refine ⟨?_, fun j he => ?_⟩
      · rcases Op.endFlag hr'.inv g with hsame | ho
        · exact hsame.trans hf
        · rw [ho] at hpre hstep
          rcases hpre with ⟨hv, -⟩ | ⟨hv, -⟩
          · rw [hv] at hstep
            exact absurd hstep.storesEnd (hne a.tid)
          · exact hv
      · rcases he.of_step hs with ⟨-, he⟩ | ⟨h0, -⟩
        · exact hne j he
        · rw [hf] at h0
          cases h0

/-- An answer `true` of `main_thread_finished` is kept in every run: it is given under
the lock, so that no thread is between the test and the store. -/
theorem Reachable.answer_stays (h : Reachable s)
    (hi : i.call? (s.pc i) = some (.check .mainThreadFinished)) (hg : s.mem.worker = some g)
    (hf : s.mem.mainThreadFinished = true) (hs : System.Reach s s')
    (hg' : s'.mem.worker = some g) : s'.mem.mainThreadFinished = true := by
  have hwriter : s.mem.writer = some i := ((h.hold.loc i).call hi).2
  have hlt := (Shared.mainThreadFinished_iff hg).mp hf
  have hne : ∀ j, ¬Ending s j g := by
    intro j he
    obtain rfl : j = i := Option.some.inj ((he.locked h).1.symm.trans hwriter)
    cases hi.symm.trans he
  have hf' := (h.endFlag_stays (Nat.le_antisymm (h.endFlag_le g) hlt) hne hs).1
  rw [Shared.mainThreadFinished_iff hg', hf']
  decide

/-! ## Two runs -/

/-- The loop of a main thread is done, and is about to store 2. -/
def endedSchedule : List (main Empty).Action :=
  calls 0 (.registerMainThread (function 0) true) 8 ++ runs 0 13

/-- The main thread is ended after its loop. -/
def lateSchedule : List (main Empty).Action := runs 0 2 ++ calls 1 .endMainThread 3

/-- The main thread is ended, and its loop has ended before the store. -/
def crossSchedule : List (main Empty).Action := endedSchedule ++ calls 1 .endMainThread 2

/-- The step does not store 2, or nobody holds the lock. -/
def apart (s : (main P).State) (a : (main P).Action) : Bool :=
  match s.next a with
  | some (_, .storeEnd _ v) => v != 2 || s.mem.writer.isNone
  | _ => true

theorem not_crosses_of_apart (h : Reachable s) (ha : apart s a = true) : ¬Crosses s a := by
  rintro ⟨g, q, i, hn, he⟩
  simp [apart, hn, (he.locked h).1] at ha

set_option maxRecDepth 4000 in
/-- The flag stays at 2 if the main thread is ended too late, and goes back to 1 if it
is ended at the same time. -/
theorem endFlag_rises_lateRun :
    Upwards ((init : (main Empty).State).after endedSchedule)
        ((init.after endedSchedule).after lateSchedule) ∧
      ∃ s' : (main Empty).State, (init.after crossSchedule).step ⟨.run 0, .ready⟩ = some s' ∧
        ∃ i g, Doomed s' i g ∧ ∀ s'', System.Reach s' s'' →
          Refuses s'' g ∨ Doomed s'' i g ∧ ∃ b s₁, s''.step b = some s₁ ∧ Refuses s₁ g := by
  have hended : Reachable ((init : (main Empty).State).after endedSchedule) := .after _ .init
  refine ⟨endFlag_rises.1 _ _
    (.along (f := apart) .init (fun _ _ _ h => not_crosses_of_apart h.reach) _ (by decide))
    (.along (f := apart) .init (fun _ _ _ h => not_crosses_of_apart (hended.trans h.reach)) _
      (by decide)), ?_⟩
  have hsome : ((init.after crossSchedule).step ⟨.run 0, .ready⟩).isSome = true := by decide
  obtain ⟨s', hs⟩ := Option.isSome_iff_exists.mp hsome
  refine ⟨s', hs, endFlag_rises.2 _ ⟨.run 0, .ready⟩ s' (.after crossSchedule .init) hs ?_⟩
  exact ⟨0, .drop, .user 1, rfl, rfl⟩

set_option maxRecDepth 4000 in
/-- The main thread is finished, and later it is not. -/
theorem not_endFlag_rises :
    ¬∀ s s' : (main Empty).State, Reachable s → System.Reach s s' → Upwards s s' := by
  intro h
  have hup := h (init.after (crossSchedule ++ runs 0 1))
    ((init.after (crossSchedule ++ runs 0 1)).after [⟨.user 1, .proceed⟩]) (.after _ .init)
    (.after _ .init)
  exact absurd (hup.flags 0) (by decide)

end MVSync.Main
