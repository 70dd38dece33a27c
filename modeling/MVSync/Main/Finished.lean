import MVSync.Main.Lock

/-!
# What is finished when the main thread is

The loop of a worker tests the end flag before the channel, so that it leaves the
tasks that are in the channel when `end_main_thread` is called.  And between its
last test and the moment where its receiver is gone, a task that passed the test of
`submit_to_main_thread` still gets into the channel.  Nobody will look at either
(`Strands`).

In every other run the tasks of `submit_to_main_thread` are in the channel, with
the loop, or settled (`Accounted`), and the loop ends when there are none in the
channel.
-/

namespace MVSync.Main

open Concurrency

variable {P : Type} {s s' : (main P).State} {a : (main P).Action} {m : Shared P} {g : WorkerId}
  {x : Task} {t : TaskId} {o : Op P}

/-! ## Steps of one worker -/

/-- A step is one of the loop of a worker, or leaves the loop where it is. -/
theorem Reachable.step_run (h : Reachable s) (g : WorkerId) (hs : s.step a = some s') :
    (∃ o, a.tid = .run g ∧ RunStep g s.mem (run s g) (run s' g) o ∧ o.Pre (.run g) s.mem ∧
        s'.mem = o.exec s.mem) ∨
      ∃ o, a.tid ≠ .run g ∧ o.Pre a.tid s.mem ∧ run s' g = run s g ∧
        (∃ q, s.next a = some (q, o)) ∧ s'.mem = o.exec s.mem := by
  obtain ⟨q, o, hn, rfl⟩ := System.State.step_cases hs
  have hpre := (next_step hn).pre h.inv (h.hold.loc a.tid)
  by_cases hg : a.tid = .run g
  · obtain ⟨i, c⟩ := a
    cases hg
    have hstep : ∃ p, RunStep g s.mem (run s g) p o ∧ run (s.move (.run g) q o) g = p :=
      ⟨q, next_step hn, run_move s o g q⟩
    obtain ⟨p, hstep, rfl⟩ := hstep
    exact .inl ⟨o, rfl, hstep, hpre, rfl⟩
  · exact .inr ⟨o, hg, hpre, run_move_of_ne s o (Ne.symm hg) q, ⟨q, hn⟩, rfl⟩

/-- The operation of a step. -/
theorem step_mem {q : Tid.Pc P a.tid} (hn : s.next a = some (q, o)) (hs : s.step a = some s') :
    s'.mem = o.exec s.mem := by
  obtain ⟨q', o', hn', rfl⟩ := System.State.step_cases hs
  obtain ⟨-, rfl⟩ := Prod.mk.inj (Option.some.inj (hn.symm.trans hn'))
  rfl

/-- A loop that was called is that of a worker that was made. -/
theorem Reachable.lt_count (h : Reachable s) (hp : run s g ≠ .idle) : g < s.mem.count := by
  have hk : (run s g).Knows s.mem g := h.hold.loc (.run g)
  cases hr : run s g with
  | idle => exact absurd hr hp
  | poll x call kept todo =>
      rw [hr] at hk
      exact hk.1
  | _ =>
      rw [hr] at hk
      exact hk

/-- Only the loop of a worker receives. -/
theorem Op.Pre.not_recv {i : Tid} (hp : o.Pre i m) (hi : i ≠ .run g) : o ≠ .recv g := by
  rintro rfl
  exact hi hp

/-- The loop has ended. -/
def RunPc.past : RunPc P → Bool
  | .store | .drop | .returned => true
  | _ => false

/-- The futures of the loop whose task is not settled. -/
def RunPc.holds : RunPc P → List Task
  | .top futures | .check futures | .wait futures => futures
  | .retain kept todo | .settle _ .wakeQueue kept todo => kept ++ todo
  | .poll x _ kept todo | .pendingArm x kept todo | .errArm x _ kept todo
  | .readyArm x kept todo | .settle x (.signals _) kept todo => x :: (kept ++ todo)
  | _ => []

/-- User code takes nothing from a channel. -/
theorem CallStep.not_recv {i : Tid} {p p' : CallPc} (h : CallStep i m p p' o) : o ≠ .recv g := by
  cases h <;> simp

/-- A loop that has ended does not begin again. -/
theorem RunStep.past {p p' : RunPc P} (h : RunStep g m p p' o) (hp : p.past = true) :
    p'.past = true ∧ ((o.exec m).workers g).channel = (m.workers g).channel ∧
      (o.exec m).submitted = m.submitted := by
  cases h with
  | store => exact ⟨rfl, by simp [Op.exec], rfl⟩
  | drop => exact ⟨rfl, by simp [Op.exec], rfl⟩
  | _ => cases hp

/-! ## Where a task is -/

/-- A loop that receives nothing keeps its futures, until their tasks are settled. -/
theorem RunStep.holds {p p' : RunPc P} (h : RunStep g m p p' o) (hx : x ∈ p.holds) :
    x ∈ p'.holds ∨ (g, x.id) ∈ (o.exec m).settled := by
  cases h with
  | wakeSignal =>
      rcases List.mem_cons.mp hx with rfl | hx
      · exact .inr List.mem_cons_self
      · exact .inl hx
  | tryRecv _ => exact .inl (List.mem_append_left _ hx)
  | retained => exact .inl (by simpa [RunPc.holds] using hx)
  | poll => exact .inl (by simpa [RunPc.holds, or_left_comm] using hx)
  | keep _ => exact .inl (by simpa [RunPc.holds, or_left_comm] using hx)
  | recv _ => cases hx
  | ended _ => cases hx
  | store => cases hx
  | drop => cases hx
  | disconnected _ _ => cases hx
  | done _ => cases hx
  | start _ => cases hx
  | _ => exact .inl hx

/-- What the loop receives, it holds. -/
theorem RunStep.receives {p p' : RunPc P} (h : RunStep g m p p' o) (hi : Inv m)
    (hx : x ∈ (m.workers g).channel) :
    x ∈ ((o.exec m).workers g).channel ∨ x ∈ p'.holds := by
  have htail : ∀ {y : Task} {ys : List Task}, (m.workers g).channel = y :: ys →
      x = y ∨ x ∈ (((Op.recv g).exec m).workers g).channel := by
    intro y ys hc
    rw [hc] at hx
    simpa [Op.exec, hc] using hx
  cases h with
  | tryRecv hc =>
      rcases htail hc with rfl | hx
      · exact .inr (by simp [RunPc.holds])
      · exact .inl hx
  | recv hc =>
      rcases htail hc with rfl | hx
      · exact .inr (by simp [RunPc.holds])
      · exact .inl hx
  | user hc => exact .inl (Op.mem_channel hi hc.not_recv hx)
  | _ => exact .inl (Op.mem_channel hi (by simp) hx)

/-- The tasks of `submit_to_main_thread` are in the channel, with the loop, or
settled. -/
def Accounted (s : (main P).State) (g : WorkerId) : Prop :=
  ∀ t, (g, t) ∈ s.mem.submitted →
    (∃ x : Task, (x ∈ (s.mem.workers g).channel ∨ x ∈ (run s g).holds) ∧ x.id = t) ∨
      (g, t) ∈ s.mem.settled

/-- A task is submitted to the channel. -/
theorem Op.submits (hp : (g, t) ∈ (o.exec m).submitted) :
    (g, t) ∈ m.submitted ∨ ∃ x, o = .send g x true ∧ x.id = t := by
  cases o with
  | send k x submit =>
      cases submit with
      | true =>
          rcases List.mem_cons.mp hp with he | hp
          · obtain ⟨rfl, rfl⟩ := Prod.mk.inj he
            exact .inr ⟨x, rfl, rfl⟩
          · exact .inl hp
      | false => exact .inl hp
  | _ => exact .inl hp

theorem Op.settled (o : Op P) (m : Shared P) : ∀ p ∈ m.settled, p ∈ (o.exec m).settled := by
  intro p hp
  cases o with
  | wakeSignal g t => exact List.mem_cons_of_mem _ hp
  | _ => exact hp

theorem Accounted.step (ha : Accounted s g) (h : Reachable s) (hs : s.step a = some s') :
    Accounted s' g := by
  intro t ht
  rcases h.step_run g hs with ⟨o, -, hrun, -, hm⟩ | ⟨o, hne, hpre, hrun, -, hm⟩
  · rw [hm] at ht ⊢
    rcases Op.submits ht with ht | ⟨x, rfl, rfl⟩
    · rcases ha t ht with ⟨x, hx, rfl⟩ | hx
      · rcases hx with hx | hx
        · exact .inl ⟨x, hrun.receives h.inv hx, rfl⟩
        · exact (hrun.holds hx).imp_left fun hx => ⟨x, .inr hx, rfl⟩
      · exact .inr (o.settled _ _ hx)
    · exact .inl ⟨x, .inl (by simp [Op.exec]), rfl⟩
  · rw [hm] at ht ⊢
    rw [hrun]
    rcases Op.submits ht with ht | ⟨x, rfl, rfl⟩
    · rcases ha t ht with ⟨x, hx, rfl⟩ | hx
      · exact .inl ⟨x, hx.imp_left (Op.mem_channel h.inv (hpre.not_recv hne)), rfl⟩
      · exact .inr (o.settled _ _ hx)
    · exact .inl ⟨x, .inl (by simp [Op.exec]), rfl⟩

theorem Reachable.accounted (h : Reachable s) (g : WorkerId) : Accounted s g :=
  h.invariant (I := fun s => Accounted s g) (fun t ht => by cases ht)
    fun _ hr ha hs _ => ha.step hr hs

/-- Only the end of the loop stores 2. -/
theorem RunStep.storesEnd {p p' : RunPc P} (h : RunStep g m p p' (.storeEnd g 2)) :
    p' = .drop := by
  cases h with
  | user hc => cases hc
  | store => rfl

/-- After the store of 2 the loop drops its receiver and returns. -/
theorem RunStep.stored {p p' : RunPc P} (h : RunStep g m p p' o) (hp : p = .drop ∨ p = .returned) :
    o = .dropReceiver g ∧ p' = .returned := by
  cases h with
  | drop => exact ⟨rfl, rfl⟩
  | _ => simp at hp

/-- The flag says 2 only after the final store. -/
theorem Reachable.stored (h : Reachable s) (g : WorkerId) :
    (s.mem.workers g).endFlag = 2 → run s g = .drop ∨ run s g = .returned := by
  refine h.invariant
    (I := fun s => (s.mem.workers g).endFlag = 2 → run s g = .drop ∨ run s g = .returned)
    (fun hf => by cases hf) ?_
  intro s s' a (hr : Reachable s) hi hs _ hf
  rcases hr.step_run g hs with ⟨o, -, hrun, hpre, hm⟩ | ⟨o, hne, hpre, hrun, -, hm⟩
  · rw [hm] at hf
    rcases Op.endFlag hr.inv g with he | ho
    · exact .inr (hrun.stored (hi (he ▸ hf))).2
    · rw [hf] at ho
      subst ho
      exact .inl hrun.storesEnd
  · rw [hm] at hf
    rw [hrun]
    rcases hpre.endFlag hr.inv g with he | ⟨he, -⟩ | ⟨-, -, he⟩
    · exact hi (he ▸ hf)
    · exact absurd he hne
    · rw [he] at hf
      cases hf

/-- The flag says 2 only after the loop. -/
theorem Reachable.past (h : Reachable s) (g : WorkerId) (hf : (s.mem.workers g).endFlag = 2) :
    (run s g).past = true := by
  rcases h.stored g hf with hp | hp <;> rw [hp] <;> rfl

/-! ## Tasks that are left in the channel -/

/-- A worker whose end flag is 2 has settled every task with which
`submit_to_main_thread` returned, and none of them is in its channel. -/
def AllSettled (s : (main P).State) : Prop :=
  ∀ g t, (g, t) ∈ s.mem.accepted → (s.mem.workers g).endFlag = 2 →
    (g, t) ∈ s.mem.settled ∧ ∀ x ∈ (s.mem.workers g).channel, x.id ≠ t

/-- The loop ends on the flag with a task of `submit_to_main_thread` in the channel,
or a task is sent to a worker whose loop has ended. -/
def Strands (s : (main P).State) (a : (main P).Action) : Prop :=
  (∃ g, a.tid = .run g ∧ run s g = .top [] ∧ (s.mem.workers g).endFlag ≠ 0 ∧
      ∃ x ∈ (s.mem.workers g).channel, (g, x.id) ∈ s.mem.submitted) ∨
    ∃ g x b q, s.next a = some (q, .send g x b) ∧ (run s g).past = true

/-- After the loop no task of `submit_to_main_thread` is in the channel. -/
def Cleared (s : (main P).State) (g : WorkerId) : Prop :=
  (run s g).past = true → ∀ x ∈ (s.mem.workers g).channel, (g, x.id) ∉ s.mem.submitted

/-- The loop ends with an empty channel, or on the flag. -/
theorem RunStep.ends {p p' : RunPc P} (h : RunStep g m p p' o) (hp : p.past = false)
    (hp' : p'.past = true) :
    o = .tau ∧ ((m.workers g).channel = [] ∨ p = .top [] ∧ (m.workers g).endFlag ≠ 0) := by
  cases h with
  | ended hf => exact ⟨rfl, .inr ⟨rfl, hf⟩⟩
  | done hc => exact ⟨rfl, .inl hc⟩
  | disconnected hc _ => exact ⟨rfl, .inl hc⟩
  | store => cases hp
  | drop => cases hp
  | _ => cases hp'

theorem Cleared.step (hc : Cleared s g) (h : Reachable s) (ha : ¬Strands s a)
    (hs : s.step a = some s') : Cleared s' g := by
  intro hp x hx
  rcases h.step_run g hs with ⟨o, hi, hrun, hpre, hm⟩ | ⟨o, hne, hpre, hrun, ⟨q, hn⟩, hm⟩
  · rw [hm] at hx ⊢
    cases hpast : (run s g).past with
    | true =>
        obtain ⟨-, hch, hsub⟩ := hrun.past hpast
        rw [hch] at hx
        rw [hsub]
        exact hc hpast x hx
    | false =>
        obtain ⟨rfl, hend⟩ := hrun.ends hpast hp
        rcases hend with hch | ⟨htop, hf⟩
        · have hx' : x ∈ (s.mem.workers g).channel := hx
          simp [hch] at hx'
        · exact fun hsub => ha (.inl ⟨g, hi, htop, hf, x, hx, hsub⟩)
  · rw [hrun] at hp
    have hsend : ∀ y b, o ≠ .send g y b := by
      intro y b ho
      exact ha (.inr ⟨g, y, b, q, ho ▸ hn, hp⟩)
    rw [hm] at hx ⊢
    rcases Op.channel h.inv (hpre.not_recv hne) with hch | ⟨y, b, ho, -⟩
    · intro hsub
      rcases Op.submits hsub with hsub | ⟨y, ho, -⟩
      · exact hc hp x (hch ▸ hx) hsub
      · exact hsend y true ho
    · exact absurd ho (hsend y b)

/-- What is in the channel when the loop has ended stays there. -/
theorem left_in_channel (h : Reachable s) (hp : (run s g).past = true)
    (hx : x ∈ (s.mem.workers g).channel) (hs' : System.Reach s s') :
    (run s' g).past = true ∧ x ∈ (s'.mem.workers g).channel := by
  induction hs' with
  | init => exact ⟨hp, hx⟩
  | step a hr hs _ ih =>
      obtain ⟨hp, hx⟩ := ih
      have hreach : Reachable _ := h.trans hr
      rcases hreach.step_run g hs with ⟨o, -, hrun, -, hm⟩ | ⟨o, hne, hpre, hrun, -, hm⟩
      · obtain ⟨hp', hch, -⟩ := hrun.past hp
        rw [hm, hch]
        exact ⟨hp', hx⟩
      · rw [hrun, hm]
        exact ⟨hp, Op.mem_channel hreach.inv (hpre.not_recv hne) hx⟩

/-- A step that strands a task leaves it in the channel for good. -/
theorem Strands.left (ha : Strands s a) (h : Reachable s) (hs : s.step a = some s') :
    ∃ g x, ∀ s'', System.Reach s' s'' →
      (run s'' g).past = true ∧ x ∈ (s''.mem.workers g).channel := by
  have h' : Reachable s' := .step a h hs trivial
  rcases ha with ⟨g, hi, htop, hf, x, hx, -⟩ | ⟨g, x, b, q, hn, hp⟩
  · rcases h.step_run g hs with ⟨o, -, hrun, -, hm⟩ | ⟨o, hne, -⟩
    · have hafter : o = .tau ∧ (run s' g).past = true := by
        rw [htop] at hrun
        generalize run s' g = p at hrun
        cases hrun with
        | ended _ => exact ⟨rfl, rfl⟩
        | whenDone h0 _ => exact absurd h0 hf
        | goesOn h0 _ => exact absurd h0 hf
      obtain ⟨rfl, hp⟩ := hafter
      refine ⟨g, x, fun s'' => left_in_channel h' hp ?_⟩
      rw [hm]
      exact hx
    · exact absurd hi hne
  · have hm := step_mem hn hs
    have hx : x ∈ (s'.mem.workers g).channel := by
      rw [hm]
      simp [Op.exec]
    refine ⟨g, x, fun s'' => left_in_channel h' ?_ hx⟩
    rcases h.step_run g hs with ⟨o, -, hrun, -⟩ | ⟨o, -, -, hrun, -⟩
    · exact (hrun.past hp).1
    · rw [hrun]
      exact hp

/-- Where no task is stranded, a worker has settled its tasks when its end flag is
2.  A stranded task stays in the channel of a loop that has ended. -/
theorem finishes :
    (∀ s : (main P).State, System.ReachVia (fun s a _ => ¬Strands s a) init s → AllSettled s) ∧
      ∀ (s : (main P).State) (a : (main P).Action) (s' : (main P).State), Reachable s →
        s.step a = some s' → Strands s a →
          ∃ g x, ∀ s'', System.Reach s' s'' →
            (run s'' g).past = true ∧ x ∈ (s''.mem.workers g).channel := by
  refine ⟨fun s h => ?_, fun s a s' h hs ha => ha.left h hs⟩
  intro g t ht hf
  have hr : Reachable s := h.reach
  have hp := hr.past g hf
  have hsub := hr.inv.accepted _ ht
  have hclear : Cleared s g := by
    refine h.invariant (I := fun s => Cleared s g) (fun hp => by cases hp) ?_
    intro s s' a hr hc hs ha
    exact hc.step hr.reach ha hs
  have hchannel : ∀ x ∈ (s.mem.workers g).channel, x.id ≠ t := by
    intro x hx he
    exact hclear hp x hx (he ▸ hsub)
  refine ⟨?_, hchannel⟩
  rcases hr.accounted g t hsub with ⟨x, hx | hx, he⟩ | hset
  · exact absurd he (hchannel x hx)
  · cases hpc : run s g with
    | store => simp [hpc, RunPc.holds] at hx
    | drop => simp [hpc, RunPc.holds] at hx
    | returned => simp [hpc, RunPc.holds] at hx
    | _ =>
        rw [hpc] at hp
        cases hp
  · exact hset

/-! ## Two runs -/

/-- A call of a thread of the user, and the steps to its end. -/
def calls (i : ThreadId) (c : Call) (n : Nat) : List (main P).Action :=
  ⟨.user i, .call c⟩ :: List.replicate n ⟨.user i, .proceed⟩

/-- Steps of a worker, in which every poll is ready at once. -/
def runs (g : WorkerId) (n : Nat) : List (main P).Action := List.replicate n ⟨.run g, .ready⟩

/-- A task of a function. -/
def function (t : TaskId) : Task := ⟨t, .fromFunction, [], [], none, [], true⟩

/-- `init` submits a task to the main thread, which ends when it is done. -/
def doneSchedule : List (main Empty).Action :=
  calls 0 (.registerMainThread (function 0) true) 8 ++ runs 0 5 ++
    [⟨.run 0, .user (.call (.submitToMainThread (function 1)))⟩] ++
    List.replicate 6 ⟨.run 0, .user .proceed⟩ ++ runs 0 22

/-- A task is submitted, and the main thread is ended before it looks. -/
def endSchedule : List (main Empty).Action :=
  calls 0 (.registerMainThread (function 0) false) 8 ++
    calls 1 (.submitToMainThread (function 1)) 6 ++ calls 1 .endMainThread 4 ++ runs 0 1

/-- The step is not the end of a loop on the flag, and sends nothing after a loop. -/
def careful (s : (main P).State) (a : (main P).Action) : Bool :=
  (match s.next a with
    | some (_, .send g _ _) => !(run s g).past
    | _ => true) &&
  match a.tid with
  | .run g =>
      match run s g with
      | .top [] => (s.mem.workers g).endFlag == 0
      | _ => true
  | _ => true

theorem not_strands_of_careful (h : careful s a = true) : ¬Strands s a := by
  obtain ⟨h₁, h₂⟩ := Bool.and_eq_true_iff.mp h
  rintro (⟨g, hi, htop, hf, -⟩ | ⟨g, x, b, q, hn, hp⟩)
  · simp only [hi, htop, beq_iff_eq] at h₂
    exact hf h₂
  · simp [hn, hp] at h₁

set_option maxRecDepth 4000 in
/-- The two tasks of the main thread are settled.  The one that was submitted before
the end is not. -/
theorem finishes_doneRun :
    AllSettled ((init : (main Empty).State).after doneSchedule) ∧
      ∃ s' : (main Empty).State, (init.after endSchedule).step ⟨.run 0, .ready⟩ = some s' ∧
        ∃ g x, ∀ s'', System.Reach s' s'' →
          (run s'' g).past = true ∧ x ∈ (s''.mem.workers g).channel := by
  refine ⟨finishes.1 _ (.along (f := careful) .init (fun _ _ _ _ => not_strands_of_careful)
    doneSchedule (by decide)), ?_⟩
  have hsome : ((init.after endSchedule).step ⟨.run 0, .ready⟩).isSome = true := by decide
  obtain ⟨s', hs⟩ := Option.isSome_iff_exists.mp hsome
  refine ⟨s', hs, finishes.2 _ ⟨.run 0, .ready⟩ s' (.after endSchedule .init) hs ?_⟩
  exact .inl ⟨0, rfl, by decide, by decide, function 1, by decide, by decide⟩

set_option maxRecDepth 4000 in
/-- The main thread is finished, and a task that it accepted is in its channel. -/
theorem not_finishes : ¬∀ s : (main Empty).State, Reachable s → AllSettled s := by
  intro h
  have hall := h (init.after (endSchedule ++ runs 0 3)) (.after _ .init) 0 1 (by decide) (by decide)
  exact absurd hall.1 (by decide)

end MVSync.Main
