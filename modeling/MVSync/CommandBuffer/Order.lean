import MVSync.CommandBuffer.Wiring
import MVSync.Pool.Turn

/-!
# The order of a baked command buffer

A program contains the tasks of a baked buffer, under names of its own for the
tasks and the semaphores (`Baked.Within`).  With threads, a task that waits on
semaphores is settled after they are signalled (`Pool.Turned`), skipped tasks
included.  So the order goes down every chain, and from the first task of a chain
to the last one of every chain that is linked to it.
-/

namespace MVSync

open Concurrency Pool

variable {V P : Type} {cfg : Specs} {prog : Program V P} {t : TaskId} {g : SemId}

/-! ## The tasks of a buffer in a program -/

/-- The future, with another name for the predecessor. -/
def Inner.rename (task : TaskId → TaskId) : Inner → Inner
  | .fromContinuation p => .fromContinuation (task p)
  | .fromAsyncContinuation p => .fromAsyncContinuation (task p)
  | inner => inner

/-- The baked tasks are tasks of the program.  Baking allocates the semaphores, so
no other task signals them. -/
structure Baked.Within (baked : Baked) (prog : Program V P) (task : TaskId → TaskId)
    (sem : SemId → SemId) (fence : FenceId → FenceId) : Prop where
  taskInjective : Function.Injective task
  semInjective : Function.Injective sem
  inner : ∀ x ∈ baked.tasks, prog.inner (task x.id) = x.inner.rename task
  wait : ∀ x ∈ baked.tasks, prog.wait (task x.id) = x.wait.map sem
  semaphores : ∀ x ∈ baked.tasks, prog.semaphores (task x.id) = x.semaphores.map sem
  fence : ∀ f t, baked.fence f = some t → prog.fence (fence f) = some (task t)
  own : ∀ x ∈ baked.tasks, ∀ g ∈ x.semaphores, ∀ t, sem g ∈ prog.semaphores t →
    ∃ y ∈ baked.tasks, task y.id = t

/-! ## Settled tasks -/

/-- The task is settled as returned, panicked or cancelled. -/
structure Cell.Settled (c : Cell V P) : Prop where
  finished : c.Finished
  state : c.state ≠ .pending

namespace Pool.Reachable

variable {s : (pool cfg prog).State}

theorem settled_of_decided (h : Reachable s) (hd : (s.mem.cell t).stage.decided = true) :
    (s.mem.cell t).Settled := by
  obtain ⟨f, hf, hw⟩ := (h.inv.life.cell t).decided_of_stage hd
  exact ⟨(h.inv.life.cell t).finished (by simp [hf]), hw.state_ne_pending⟩

end Pool.Reachable

/-! ## The order of the chains -/

section

variable {s : (pool cfg prog).State} {r : Recorder} {closed : List TaskChain}
  {current : TaskChain} {baked : Baked} {first : SemId} {task : TaskId → TaskId}
  {sem : SemId → SemId} {fence : FenceId → FenceId} {k j e i : Nat} {x y : Task}

/-- The recorded tasks, baked as `baked`, are tasks of the program. -/
structure Placed (prog : Program V P) (r : Recorder) (first : SemId) (baked : Baked)
    (task : TaskId → TaskId) (sem : SemId → SemId) (fence : FenceId → FenceId) : Prop where
  recorded : ∃ closed current, r.Recorded closed current
  inRange : r.raw.InRange
  tasks : baked.tasks = (r.raw.wired first).flatten
  within : baked.Within prog task sem fence

theorem TaskAt.unique {chains : List (List Task)} (hx : TaskAt chains k j x)
    (hy : TaskAt chains k j y) : x = y := by
  obtain ⟨c, hc, hx⟩ := hx
  obtain ⟨c', hc', hy⟩ := hy
  obtain rfl := Option.some.inj (hc.symm.trans hc')
  exact Option.some.inj (hx.symm.trans hy)

/-- A semaphore comes from one task. -/
theorem Wire.Signals.unique {b : RawCommandBuffer} {w : Wire} (h : w.Signals b k j)
    (h' : w.Signals b e i) : k = e ∧ j = i := by
  cases w with
  | link n =>
      obtain ⟨s, c, hl, hc, hj⟩ := h
      obtain ⟨s', c', hl', hc', hi⟩ := h'
      obtain ⟨rfl, -⟩ := Prod.mk.inj (Option.some.inj (hl.symm.trans hl'))
      obtain rfl := Option.some.inj (hc.symm.trans hc')
      exact ⟨rfl, Nat.succ.inj (hj.trans hi.symm)⟩
  | next k' j' => exact ⟨h.1.symm.trans h'.1, h.2.symm.trans h'.2⟩

theorem Pool.Turned.waited_of_decided (h : Turned s)
    (hd : (s.mem.cell t).stage.decided = true) : Waited prog s.mem t :=
  h t fun hf => by simp [hf, Stage.decided] at hd

namespace Placed

theorem mem (h : Placed prog r first baked task sem fence) (hx : TaskAt (r.raw.wired first) k j x) :
    x ∈ baked.tasks := by
  rw [h.tasks]
  exact mem_flatten_iff_taskAt.mpr ⟨k, j, hx⟩

theorem taskAt_of_mem (h : Placed prog r first baked task sem fence) (hx : x ∈ baked.tasks) :
    ∃ k j, TaskAt (r.raw.wired first) k j x := by
  rw [h.tasks] at hx
  exact mem_flatten_iff_taskAt.mp hx

theorem waits (h : Placed prog r first baked task sem fence)
    (hx : TaskAt (r.raw.wired first) k j x) {w : Wire} (hw : w.Of r.raw) (hk : w.Waits r.raw k j) :
    sem (w.sem r.raw first) ∈ prog.wait (task x.id) := by
  obtain ⟨closed, current, hr⟩ := h.recorded
  rw [h.within.wait x (h.mem hx)]
  exact List.mem_map_of_mem (((hr.waits h.inRange hx).2 _).mpr ⟨w, hw, hk, rfl⟩)

/-- Only the tasks that a wire comes from signal its semaphore. -/
theorem signals (h : Placed prog r first baked task sem fence) {w : Wire} (hw : w.Of r.raw)
    (ht : sem (w.sem r.raw first) ∈ prog.semaphores t)
    (hx : TaskAt (r.raw.wired first) k j x) (hk : w.Signals r.raw k j) :
    ∃ e i y, TaskAt (r.raw.wired first) e i y ∧ w.Signals r.raw e i ∧ task y.id = t := by
  obtain ⟨closed, current, hr⟩ := h.recorded
  have hg := ((hr.signals h.inRange hx).2 _).mpr ⟨w, hw, hk, rfl⟩
  obtain ⟨y, hy, rfl⟩ := h.within.own x (h.mem hx) _ hg t ht
  obtain ⟨e, i, hye⟩ := h.taskAt_of_mem hy
  rw [h.within.semaphores y hy] at ht
  obtain ⟨g, hg, he⟩ := List.mem_map.mp ht
  obtain ⟨w', hw', hs', rfl⟩ := ((hr.signals h.inRange hye).2 g).mp hg
  obtain rfl := Wire.place_injective hw' hw (Nat.add_left_cancel (h.within.semInjective he))
  exact ⟨e, i, y, hye, hs', rfl⟩

/-- The semaphore of a wire was signalled by its task, when a task that waits for it
has had its turn. -/
theorem signalled (h : Placed prog r first baked task sem fence) (hs : Reachable s) {w : Wire}
    (hw : w.Of r.raw) (hx : TaskAt (r.raw.wired first) k j x) (hk : w.Waits r.raw k j)
    (hwait : Waited prog s.mem (task x.id)) (hy : TaskAt (r.raw.wired first) e i y)
    (he : w.Signals r.raw e i) : (s.mem.cell (task y.id)).stage.decided = true ∧
      s.mem.sem (sem (w.sem r.raw first)) = true := by
  have hg := hwait _ (h.waits hx hw hk)
  obtain ⟨u, hu, hd⟩ := hs.signaller hg
  obtain ⟨e', i', y', hy', he', rfl⟩ := h.signals hw hu hy he
  obtain ⟨rfl, rfl⟩ := he.unique he'
  obtain rfl := hy.unique hy'
  exact ⟨hd, hg⟩

/-- The only semaphore of a task that is not the last one of its chain. -/
theorem semaphores_next (h : Placed prog r first baked task sem fence) {c : TaskChain}
    (hc : r.raw.tasks[k]? = some c) (hj : j + 1 < c.tasks.length)
    (hx : TaskAt (r.raw.wired first) k j x) (hg : g ∈ prog.semaphores (task x.id)) :
    g = sem ((Wire.next k j).sem r.raw first) := by
  obtain ⟨closed, current, hr⟩ := h.recorded
  rw [h.within.semaphores x (h.mem hx)] at hg
  obtain ⟨g', hg', rfl⟩ := List.mem_map.mp hg
  obtain ⟨w, -, hw, rfl⟩ := ((hr.signals h.inRange hx).2 g').mp hg'
  cases w with
  | link n =>
      obtain ⟨d, c', -, hc', hlen⟩ := hw
      obtain rfl := Option.some.inj (hc.symm.trans hc')
      exact absurd hlen (Nat.ne_of_lt hj)
  | next k' j' =>
      obtain ⟨rfl, rfl⟩ := hw
      rfl

/-- The tasks in front of a task of a chain that has had its turn are settled, and
their semaphores are signalled. -/
theorem earlier (h : Placed prog r first baked task sem fence) (hs : Reachable s) (ht : Turned s)
    (hx : TaskAt (r.raw.wired first) k j x) (hwait : Waited prog s.mem (task x.id)) (hi : i < j)
    (hy : TaskAt (r.raw.wired first) k i y) : (s.mem.cell (task y.id)).stage.decided = true ∧
      ∀ g ∈ prog.semaphores (task y.id), s.mem.sem g = true := by
  induction j generalizing x with
  | zero => cases hi
  | succ j ih =>
      obtain ⟨c, x', hc, hx', -⟩ := taskAt_wired.mp hx
      have hlen : j + 1 < c.tasks.length := (List.getElem?_eq_some_iff.mp hx').1
      have hz := taskAt_bind first hc (List.getElem?_eq_getElem (Nat.lt_of_succ_lt hlen))
      obtain ⟨hd, hsem⟩ := h.signalled hs (w := .next k j) ⟨c, hc, hlen⟩ hx ⟨rfl, rfl⟩ hwait hz
        ⟨rfl, rfl⟩
      rcases Nat.lt_succ_iff_lt_or_eq.mp hi with hi | rfl
      · exact ih hz (ht.waited_of_decided hd) hi
      · obtain rfl := hy.unique hz
        exact ⟨hd, fun g hg => h.semaphores_next hc hlen hz hg ▸ hsem⟩

/-- The tasks of a chain are settled when a task of a chain that it is linked to
has had its turn. -/
theorem linked (h : Placed prog r first baked task sem fence) (hs : Reachable s) (ht : Turned s)
    {d : Nat} (hl : (e, d) ∈ r.raw.chainLinks) (hx : TaskAt (r.raw.wired first) d j x)
    (hwait : Waited prog s.mem (task x.id)) {c : TaskChain} (hc : r.raw.tasks[e]? = some c)
    (hy : TaskAt (r.raw.wired first) e i y) : (s.mem.cell (task y.id)).stage.decided = true ∧
      (i + 1 < c.tasks.length → ∀ g ∈ prog.semaphores (task y.id), s.mem.sem g = true) := by
  obtain ⟨closed, current, hr⟩ := h.recorded
  obtain ⟨c', y', hc', hy', -⟩ := taskAt_wired.mp hy
  obtain rfl := Option.some.inj (hc.symm.trans hc')
  have hi : i < c.tasks.length := (List.getElem?_eq_some_iff.mp hy').1
  -- the first task of the successor waits for the last task of the dependency
  obtain ⟨z, hz, hzw⟩ : ∃ z, TaskAt (r.raw.wired first) d 0 z ∧ Waited prog s.mem (task z.id) := by
    obtain ⟨c', x', hd, hx', -⟩ := taskAt_wired.mp hx
    have hpos : 0 < c'.tasks.length := Nat.zero_lt_of_lt (List.getElem?_eq_some_iff.mp hx').1
    have hz := taskAt_bind first hd (List.getElem?_eq_getElem hpos)
    rcases Nat.eq_zero_or_pos j with rfl | hj
    · exact ⟨x, hx, hwait⟩
    · exact ⟨_, hz, ht.waited_of_decided (h.earlier hs ht hx hwait hj hz).1⟩
  obtain ⟨n, hn⟩ := List.getElem?_of_mem hl
  have hlast := taskAt_bind first hc
    (List.getElem?_eq_getElem (Nat.sub_one_lt (Nat.ne_of_gt (Nat.zero_lt_of_lt hi))))
  have hne : c.tasks ≠ [] := List.ne_nil_of_mem (List.mem_of_getElem? hy')
  have hd := (h.signalled hs (hr.link_of h.inRange hn (List.mem_of_getElem? hc) hne) hz
    ⟨⟨e, hn⟩, rfl⟩ hzw hlast ⟨d, c, hn, hc, Nat.succ_pred (Nat.ne_of_gt (Nat.zero_lt_of_lt hi))⟩).1
  rcases Nat.lt_or_eq_of_le (Nat.le_sub_one_of_lt hi) with hi | rfl
  · obtain ⟨hdec, hsem⟩ := h.earlier hs ht hlast (ht.waited_of_decided hd) hi hy
    exact ⟨hdec, fun _ => hsem⟩
  · obtain rfl := hy.unique hlast
    exact ⟨hd, fun hlt => absurd hlt (by omega)⟩

end Placed

end

/-- A state keeps the order of a buffer.  In front of a body that was invoked, and
of a fence that was woken, every task is settled.  The semaphores of such a task
are signalled as well, except that the last task of a chain signals the ones of
its links one after the other. -/
structure Pool.KeepsOrder (b : RawCommandBuffer) (task : TaskId → TaskId)
    (fence : FenceId → FenceId) (s : (pool cfg prog).State) : Prop where
  link : ∀ (e d i : Nat) (c c' : TaskChain) (x y : Task), (e, d) ∈ b.chainLinks →
    b.tasks[e]? = some c → b.tasks[d]? = some c' → x ∈ c'.tasks →
    (s.mem.cell (task x.id)).invoked ≠ [] → c.tasks[i]? = some y →
    (s.mem.cell (task y.id)).Settled ∧
      (i + 1 < c.tasks.length → ∀ g ∈ prog.semaphores (task y.id), s.mem.sem g = true)
  chain : ∀ (k i j : Nat) (c : TaskChain) (x y : Task), b.tasks[k]? = some c →
    c.tasks[j]? = some x → (s.mem.cell (task x.id)).invoked ≠ [] → c.tasks[i]? = some y → i < j →
    (s.mem.cell (task y.id)).Settled ∧ ∀ g ∈ prog.semaphores (task y.id), s.mem.sem g = true
  fence : ∀ (k : Nat) (f : FenceId) (c : TaskChain) (t : TaskId) (y : Task), (k, f) ∈ b.fences →
    b.tasks[k]? = some c → prog.fence (fence f) = some t → (s.mem.cell t).wakes ≠ [] →
    y ∈ c.tasks →
    (s.mem.cell (task y.id)).Settled ∧ ∀ g ∈ prog.semaphores (task y.id), s.mem.sem g = true

/-- With threads, every reachable state keeps the order of a baked buffer that was
submitted, whatever panics and is cancelled. -/
theorem Pool.baked_order (home : Bool) (calls : List Call) (r : Recorder) (first : SemId)
    (baked : Baked) (task : TaskId → TaskId) (sem : SemId → SemId) (fence : FenceId → FenceId)
    (hrun : (Recorder.new home).run calls = some r) (hb : r.raw.finish first = .ok baked)
    (hin : baked.Within prog task sem fence) (hc : 0 < cfg.threadCount)
    (s : (pool cfg prog).State) (h : Reachable s) : KeepsOrder r.raw task fence s := by
  have hc : cfg.threadCount ≠ 0 := by
    rintro h0
    simp [h0] at hc
  obtain ⟨closed, current, hr⟩ := (Recorder.Recorded.new home).run hrun
  obtain ⟨htasks, hfence⟩ := hr.baked hb
  have hp : Placed prog r first baked task sem fence :=
    ⟨⟨closed, current, hr⟩, RawCommandBuffer.inRange_of_finish hb, htasks, hin⟩
  have ht : Turned s := h.turned hc
  have hinv : ∀ {t}, (s.mem.cell t).invoked ≠ [] → Waited prog s.mem t := fun {t} hne => by
    obtain ⟨v, hv⟩ := List.exists_mem_of_ne_nil _ hne
    exact (h.inv.life.invoked t v hv).2.1
  refine ⟨fun e d i c c' x y hl he hd hx hne hy => ?_, fun k i j c x y hk hx hne hy hij => ?_,
    fun k f c t y hf hk ht' hw hy => ?_⟩
  · obtain ⟨j, hx⟩ := List.getElem?_of_mem hx
    obtain ⟨hdec, hsem⟩ := hp.linked h ht hl (taskAt_bind first hd hx) (hinv hne) he
      (taskAt_bind first he hy)
    exact ⟨h.settled_of_decided hdec, hsem⟩
  · obtain ⟨hdec, hsem⟩ := hp.earlier h ht (taskAt_bind first hk hx) (hinv hne) hij
      (taskAt_bind first hk hy)
    exact ⟨h.settled_of_decided hdec, hsem⟩
  · obtain ⟨i, hy⟩ := List.getElem?_of_mem hy
    obtain ⟨last, hlast⟩ : ∃ x, c.tasks.getLast? = some x :=
      ⟨_, List.getLast?_eq_getLast_of_ne_nil (List.ne_nil_of_mem (List.mem_of_getElem? hy))⟩
    obtain rfl : task last.id = t :=
      Option.some.inj ((hin.fence f _ (hfence k f c last hf hk hlast)).symm.trans ht')
    have hdec := (h.inv.life.cell _).stage_decided hw
    rw [List.getLast?_eq_getElem?] at hlast
    have hi : i < c.tasks.length := (List.getElem?_eq_some_iff.mp hy).1
    rcases Nat.lt_or_eq_of_le (Nat.le_sub_one_of_lt hi) with hi | rfl
    · obtain ⟨hdec', hsem⟩ := hp.earlier h ht (taskAt_bind first hk hlast)
        (ht.waited_of_decided hdec) hi (taskAt_bind first hk hy)
      exact ⟨h.settled_of_decided hdec', hsem⟩
    · obtain rfl := Option.some.inj (hy.symm.trans hlast)
      exact ⟨h.settled_of_decided hdec, h.inv.life.signalled _ hw⟩

set_option maxRecDepth 2000

/-- A chain of two commands and a chain of one that is linked to it, with a fence
on the first chain. -/
def guardedCalls : List Call :=
  [.rootSync, .chainSync 0, .rootSync, .linkChains 0 1, .createFence 0]

def guardedRecorder : Recorder := ((Recorder.new true).run guardedCalls).getD (.new true)

/-- The tasks of the buffer, the first of which panics. -/
def guarded : Program Nat Nat where
  inner t := if t = 1 then .fromContinuation 0 else .fromFunction
  wait t := if t = 1 then [1] else if t = 2 then [0] else []
  semaphores t := if t = 0 then [1] else if t = 1 then [0] else []
  preferredThread _ := none
  notOn _ := []
  home _ := true
  fence f := if f = 0 then some 1 else none
  body t _ := if t = 0 then .error (.user 7) else .ok 5
  succ p := if p = 0 then some 1 else none
  succ_iff p t := by
    by_cases ht : t = 1 <;> simp [ht, Inner.predecessor, eq_comm]
  predecessor_lt t p h := by
    by_cases ht : t = 1
    · simp [ht, Inner.predecessor] at h
      simp [ht, ← h]
    · simp [ht, Inner.predecessor] at h

/-- The buffer was submitted to a thread with two workers, and ran to its end. -/
def guardedRun : (pool ⟨1, 2, []⟩ guarded).State :=
  (poolInit ⟨1, 2, []⟩ guarded).after (submits 0 [0, 1, 2] ++ turns 60)

/-- The body of the second chain is invoked after the first chain is settled, by a
panic. -/
theorem Pool.baked_order_guardedRun :
    (guardedRun.mem.cell 2).invoked ≠ [] ∧ (guardedRun.mem.cell 0).Settled ∧
      (guardedRun.mem.cell 1).Settled := by
  obtain ⟨baked, hb⟩ : ∃ baked, guardedRecorder.raw.finish 0 = .ok baked := ⟨_, rfl⟩
  obtain rfl := Except.ok.inj hb
  have hne : (guardedRun.mem.cell 2).invoked ≠ [] := by decide
  have h := baked_order true guardedCalls guardedRecorder 0 _ id id id rfl hb
    ⟨fun _ _ => id, fun _ _ => id, by decide, by decide, by decide, fun f t hf => ?_,
      fun _ _ g _ t hg => ?_⟩ (by decide) guardedRun (.after _ .init)
  · exact ⟨hne, (h.link 0 1 0 _ _ _ _ (by decide) rfl rfl List.mem_cons_self hne rfl).1,
      (h.link 0 1 1 _ _ _ _ (by decide) rfl rfl List.mem_cons_self hne rfl).1⟩
  · have hf : Function.update (fun _ => none) 0 (some 1) f = some t := hf
    by_cases h0 : f = 0
    · subst h0
      rwa [Function.update_self] at hf
    · rw [Function.update_of_ne h0] at hf
      cases hf
  · have ht : t = 0 ∨ t = 1 := by
      by_contra hn
      rw [not_or] at hn
      simp [guarded, hn] at hg
    rcases ht with rfl | rfl
    · exact ⟨_, List.mem_cons_self, rfl⟩
    · exact ⟨_, List.mem_cons_of_mem _ List.mem_cons_self, rfl⟩

end MVSync
