import MVSync.Main.Finished

/-!
# The end of a main thread that waits

A loop without futures tests the end flag, and then waits for the next task.
`end_main_thread` stores the flag and nothing else, so that a loop that waits by
then waits on: the channel is empty, its sender is kept in `MVSync.worker`, and
`submit_to_main_thread` refuses from now on (`EndsBlocked.stays`).
-/

namespace MVSync.Main

open Concurrency

variable {P : Type} {s s' : (main P).State} {a : (main P).Action} {m : Shared P} {g : WorkerId}
  {o : Op P} {i : Tid}

/-- The loop waits in `receiver.recv()`, which it only does without futures. -/
structure Blocked (s : (main P).State) (g : WorkerId) : Prop where
  recv : run s g = .recv
  channel : (s.mem.workers g).channel = []
  sender : (s.mem.workers g).sender = true

/-- No loop waits for a task after `end_main_thread` has returned. -/
def Released (s : (main P).State) : Prop := ∀ g ∈ s.mem.ends, ¬Blocked s g

/-- `end_main_thread` stores the flag of a worker that waits for a task. -/
def EndsBlocked (s : (main P).State) (a : (main P).Action) : Prop :=
  ∃ g q, s.next a = some (q, .storeEnd g 1) ∧ Blocked s g

/-- A worker whose flag is up does not wait for a task. -/
def Heeds (s : (main P).State) (g : WorkerId) : Prop :=
  (s.mem.workers g).endFlag ≠ 0 → ¬Blocked s g

/-- A loop gets to `receiver.recv()` if the flag is down, or for a task that is
there. -/
theorem RunStep.toRecv {p : RunPc P} (h : RunStep g m p .recv o) :
    o = .tau ∧ ((m.workers g).endFlag = 0 ∧ (m.workers g).endWhenDone = false ∨
      (m.workers g).channel ≠ []) := by
  cases h with
  | goesOn hf hd => exact ⟨rfl, .inl ⟨hf, hd⟩⟩
  | notDone hc => exact ⟨rfl, .inr hc⟩

/-- A sender that was dropped does not come back. -/
theorem Op.sender (o : Op P) (hg : g < m.count) :
    ((o.exec m).workers g).sender = true → (m.workers g).sender = true := by
  have hmk := o.makes m g
  generalize (o.exec m).workers g = w at hmk ⊢
  intro hw
  cases hmk with
  | registered h => exact absurd h (Nat.ne_of_lt hg)
  | new h => exact absurd h (Nat.ne_of_lt hg)
  | replaced _ => cases hw
  | dropSender => cases hw
  | _ => exact hw

/-- A worker that another thread leaves blocked was blocked. -/
theorem Blocked.of_other (hb : Blocked s' g) (h : Reachable s) (hp : o.Pre i s.mem)
    (hi : i ≠ .run g) (hrun : run s' g = run s g) (hm : s'.mem = o.exec s.mem) : Blocked s g := by
  have hrecv : run s g = .recv := hrun ▸ hb.recv
  refine ⟨hrecv, ?_, o.sender (h.lt_count (by simp [hrecv])) (hm ▸ hb.sender)⟩
  have hc : ((o.exec s.mem).workers g).channel = [] := hm ▸ hb.channel
  rcases Op.channel h.inv (hp.not_recv hi) with he | ⟨x, b, -, he⟩
  · exact he ▸ hc
  · simp [he] at hc

theorem Heeds.step (hh : Heeds s g) (h : Reachable s) (ha : ¬EndsBlocked s a)
    (hs : s.step a = some s') : Heeds s' g := by
  intro hf hb
  rcases h.step_run g hs with ⟨o, -, hrun, -, hm⟩ | ⟨o, hne, hpre, hrun, ⟨q, hn⟩, hm⟩
  · rw [hb.recv] at hrun
    obtain ⟨rfl, hd⟩ := hrun.toRecv
    rw [hm] at hf
    have hch : ((Op.tau.exec s.mem).workers g).channel = [] := hm ▸ hb.channel
    rcases hd with ⟨hf', -⟩ | hc
    · exact hf hf'
    · exact hc hch
  · have hb' := hb.of_other h hpre hne hrun hm
    by_cases hf' : (s.mem.workers g).endFlag = 0
    · rcases Op.endFlag h.inv g with he | ho
      · exact hf (hm ▸ he.trans hf')
      · rw [ho] at hpre hn
        rcases hpre with ⟨hv, -⟩ | ⟨-, hi, -⟩
        · exact ha ⟨g, q, hv ▸ hn, hb'⟩
        · exact hne hi
    · exact hh hf' hb'

/-- A loop that ends when it is done never waits for a task. -/
theorem Reachable.whenDone (h : Reachable s) (g : WorkerId) :
    (s.mem.workers g).endWhenDone = true → ¬Blocked s g := by
  refine h.invariant (I := fun s => (s.mem.workers g).endWhenDone = true → ¬Blocked s g)
    (fun hd => by cases hd) ?_
  intro s s' a (hr : Reachable s) hi hs _ hd hb
  rcases hr.step_run g hs with ⟨o, -, hrun, -, hm⟩ | ⟨o, hne, hpre, hrun, -, hm⟩
  · rw [hb.recv] at hrun
    obtain ⟨rfl, hr⟩ := hrun.toRecv
    rw [hm] at hd
    have hch : ((Op.tau.exec s.mem).workers g).channel = [] := hm ▸ hb.channel
    have hd' : (s.mem.workers g).endWhenDone = true := hd
    rcases hr with ⟨-, hf⟩ | hc
    · simp [hd'] at hf
    · exact hc hch
  · have hb' := hb.of_other hr hpre hne hrun hm
    refine hi ?_ hb'
    have hlt : g < s.mem.count := hr.lt_count (by simp [hb'.recv])
    have hmk := o.makes s.mem g
    rw [hm] at hd
    generalize (o.exec s.mem).workers g = w at hmk hd
    cases hmk with
    | registered h => exact absurd h (Nat.ne_of_lt hlt)
    | new h => exact absurd h (Nat.ne_of_lt hlt)
    | _ => exact hd

/-- A worker that waits with the flag up, and whose sender is in `MVSync.worker`. -/
structure Stuck (s : (main P).State) (g : WorkerId) : Prop where
  blocked : Blocked s g
  flag : (s.mem.workers g).endFlag = 1
  worker : s.mem.worker = some g

/-- Nothing reaches a worker that is stuck. -/
theorem Stuck.step (hk : Stuck s g) (h : Reachable s) (hs : s.step a = some s') : Stuck s' g := by
  obtain ⟨⟨hrecv, hch, hsend⟩, hflag, hworker⟩ := hk
  obtain ⟨hlt, hpool⟩ := h.inv.registered g hworker
  rcases h.step_run g hs with ⟨o, -, hrun, -, hm⟩ | ⟨o, hne, hpre, hrun, -, hm⟩
  · rw [hrecv] at hrun
    generalize run s' g = p at hrun
    cases hrun with
    | recv hc => simp [hch] at hc
    | disconnected _ hd => simp [hsend] at hd
  · -- a new main thread is refused while the flag is 1
    have hkeep : ∀ b, o ≠ .replaceWorker b := by
      rintro b rfl
      have hfin := hpre.2
      simp [Shared.mainThreadFinished, hworker, WorkerThread.finished, hflag] at hfin
    have hsame : ((o.exec s.mem).workers g).channel = [] ∧
        ((o.exec s.mem).workers g).sender = true ∧ ((o.exec s.mem).workers g).endFlag = 1 := by
      have hmk := o.makes s.mem g
      generalize (o.exec s.mem).workers g = w at hmk ⊢
      cases hmk with
      | registered h => exact absurd h (Nat.ne_of_lt hlt)
      | new h => exact absurd h (Nat.ne_of_lt hlt)
      | replaced _ => exact absurd rfl (hkeep _)
      | dropSender =>
          have hp : (s.mem.workers g).pool = true := hpre
          simp [hpool] at hp
      | send =>
          rcases hpre.2 with hp | ⟨-, -, hf⟩
          · simp [hpool] at hp
          · exact absurd hflag hf
      | storeEnd =>
          rcases hpre with ⟨rfl, -⟩ | ⟨-, hi, -⟩
          · exact ⟨hch, hsend, rfl⟩
          · exact absurd hi hne
      | recv => exact absurd hpre hne
      | _ => exact ⟨hch, hsend, hflag⟩
    refine ⟨⟨hrun.trans hrecv, ?_, ?_⟩, ?_, ?_⟩
    · rw [hm]
      exact hsame.1
    · rw [hm]
      exact hsame.2.1
    · rw [hm]
      exact hsame.2.2
    · rw [hm, Op.exec_worker hkeep]
      exact hworker

theorem Stuck.stays (hk : Stuck s g) (h : Reachable s) (hs : System.Reach s s') : Stuck s' g := by
  induction hs with
  | init => exact hk
  | step a hr hs _ ih => exact ih.step (h.trans hr) hs

theorem EndsBlocked.stuck (ha : EndsBlocked s a) (h : Reachable s) (hs : s.step a = some s') :
    ∃ g, Stuck s' g := by
  obtain ⟨g, q, hn, hb⟩ := ha
  have hm := step_mem hn hs
  obtain ⟨-, hworker⟩ : s.mem.writer = some a.tid ∧ s.mem.worker = some g := by
    rcases (next_step hn).pre h.inv (h.hold.loc a.tid) with ⟨-, hw⟩ | ⟨hv, -⟩
    · exact hw
    · cases hv
  refine ⟨g, ⟨?_, ?_, ?_⟩, ?_, ?_⟩
  · rcases h.step_run g hs with ⟨o, -, hrun, -, hm'⟩ | ⟨o, -, -, hrun, -⟩
    · -- the worker itself cannot move
      rw [hb.recv] at hrun
      generalize run s' g = p at hrun
      cases hrun with
      | recv hc => simp [hb.channel] at hc
      | disconnected _ hd => simp [hb.sender] at hd
    · exact hrun.trans hb.recv
  · simp [hm, Op.exec, hb.channel]
  · simp [hm, Op.exec, hb.sender]
  · simp [hm, Op.exec]
  · rw [hm]
    exact hworker

/-- Where `end_main_thread` meets no worker that waits for a task, it releases the
main thread.  A worker that it meets waits for ever. -/
theorem released :
    (∀ s : (main P).State, System.ReachVia (fun s a _ => ¬EndsBlocked s a) init s → Released s) ∧
      ∀ (s : (main P).State) (a : (main P).Action) (s' : (main P).State), Reachable s →
        s.step a = some s' → EndsBlocked s a →
          ∃ g, ∀ s'', System.Reach s' s'' → Stuck s'' g := by
  refine ⟨fun s h g hg => ?_, fun s a s' h hs ha => ?_⟩
  · have hheeds : Heeds s g := by
      refine h.invariant (I := fun s => Heeds s g) (fun hf => absurd rfl hf) ?_
      intro s s' a hr hh hs ha
      exact hh.step hr.reach ha hs
    exact hheeds ((Reachable.inv h.reach).ends g hg)
  · obtain ⟨g, hk⟩ := ha.stuck h hs
    exact ⟨g, fun s'' hr => hk.stays (.step a h hs trivial) hr⟩

/-! ## Two runs -/

/-- The main thread is ended while `init` runs. -/
def busySchedule : List (main Empty).Action :=
  calls 0 (.registerMainThread (function 0) false) 8 ++ runs 0 4 ++ calls 1 .endMainThread 4 ++
    runs 0 9

/-- `init` is settled, and the main thread is about to be ended. -/
def waitSchedule : List (main Empty).Action :=
  calls 0 (.registerMainThread (function 0) false) 8 ++ runs 0 12 ++ calls 1 .endMainThread 2

/-- The step does not store the flag of a loop at `receiver.recv()`. -/
def awake (s : (main P).State) (a : (main P).Action) : Bool :=
  match s.next a with
  | some (_, .storeEnd g _) =>
      match run s g with
      | .recv => false
      | _ => true
  | _ => true

theorem not_endsBlocked_of_awake (h : awake s a = true) : ¬EndsBlocked s a := by
  rintro ⟨g, q, hn, hb⟩
  simp [awake, hn, hb.recv] at h

theorem blocked_waitSchedule : Blocked (init.after waitSchedule) 0 :=
  ⟨by decide, by decide, by decide⟩

/-- The first main thread is released.  The second one waits for ever. -/
theorem released_busyRun :
    Released ((init : (main Empty).State).after busySchedule) ∧
      ∃ s' : (main Empty).State, (init.after waitSchedule).step ⟨.user 1, .proceed⟩ = some s' ∧
        ∃ g, ∀ s'', System.Reach s' s'' → Stuck s'' g := by
  refine ⟨released.1 _ (.along (f := awake) .init (fun _ _ _ _ => not_endsBlocked_of_awake)
    busySchedule (by decide)), ?_⟩
  have hsome : ((init.after waitSchedule).step ⟨.user 1, .proceed⟩).isSome = true := by decide
  obtain ⟨s', hs⟩ := Option.isSome_iff_exists.mp hsome
  refine ⟨s', hs, released.2 _ ⟨.user 1, .proceed⟩ s' (.after waitSchedule .init) hs ?_⟩
  exact ⟨0, .unlock .returned (.ended 0), rfl, blocked_waitSchedule⟩

/-- `end_main_thread` has returned, and the worker waits. -/
theorem not_released : ¬∀ s : (main Empty).State, Reachable s → Released s := by
  intro h
  refine h (init.after (waitSchedule ++ List.replicate 2 ⟨.user 1, .proceed⟩)) (.after _ .init) 0
    (by decide) ⟨by decide, by decide, by decide⟩

end MVSync.Main
