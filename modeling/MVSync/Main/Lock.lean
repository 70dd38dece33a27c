import MVSync.Main.System

/-!
# What a thread owns during a call

The lock of `MVSync.worker` protects the field and, as long as it is held for
reading, also keeps `end_main_thread` from the flag of the worker in it.  A task
that was moved into a call belongs to the thread that makes it, until
`WorkerThread::send` has woken the worker.

`hold` is the proof outline, and `Reachable.allowed` says which operations a thread
can perform in a reachable state.
-/

namespace MVSync.Main

open Concurrency

variable {P : Type} {m m' : Shared P} {i j : Tid} {g : WorkerId} {t : TaskId} {o : Op P}

/-! ## The outline -/

/-- The task was moved to the thread, and no worker was woken for it. -/
structure Mine (m : Shared P) (i : Tid) (t : TaskId) : Prop where
  owner : m.owner t = some i
  delivered : ∀ g, (g, t) ∉ m.delivered

/-- The thread holds the lock of `MVSync.worker`. -/
def Holds (m : Shared P) (i : Tid) : Prop := i ∈ m.readers ∨ m.writer = some i

/-- Why a worker can be sent to. -/
def Open (m : Shared P) (i : Tid) (g : WorkerId) : Prop :=
  (m.workers g).pool = true ∨ Holds m i ∧ m.worker = some g ∧ (m.workers g).endFlag ≠ 1

/-- The kind of guard that a call holds. -/
def Call.Locked (m : Shared P) (i : Tid) (k : Call) : Prop :=
  if k.writes then m.writer = some i else i ∈ m.readers

/-- What is true when a call returns. -/
def Note.Knows (m : Shared P) : Note → Prop
  | .nothing => True
  | .accepted g t => (g, t) ∈ m.submitted
  | .ended g => (m.workers g).endFlag ≠ 0

/-- What a thread knows at a position of its user code. -/
def CallPc.Knows (m : Shared P) (i : Tid) : CallPc → Prop
  | .lock k => ∀ x, k.task = some x → Mine m i x.id
  | .check k => (∀ x, k.task = some x → Mine m i x.id) ∧ k.Locked m i
  | .replaceWorker x _ => Mine m i x.id ∧ m.writer = some i ∧ m.mainThreadFinished = true
  | .send k g x p =>
      Mine m i x.id ∧ Open m i g ∧ (k = .dispatcher ∨ Holds m i) ∧
        (k = .registerMainThread → m.writer = some i ∧ m.worker = some g) ∧
        (p ≠ .send → k = .submitToMainThread → (g, x.id) ∈ m.submitted)
  | .storeEnd g => m.writer = some i ∧ m.worker = some g
  | .unlock _ note => Holds m i ∧ note.Knows m
  | .dropWorker g => m.writer = some i ∧ m.worker = some g
  | .callRun g => g < m.count
  | _ => True

/-- When a thread may perform an operation. -/
def Op.Pre (i : Tid) : Op P → Shared P → Prop
  | .own t j, m => j = i ∧ m.owner t = none
  | .readLock j, m => j = i ∧ m.writer = none
  | .writeLock j, m => j = i ∧ m.writer = none ∧ m.readers = []
  | .unlock j note, m => j = i ∧ Holds m i ∧ note.Knows m
  | .replaceWorker _, m => m.writer = some i ∧ m.mainThreadFinished = true
  | .send g x _, m => Mine m i x.id ∧ Open m i g
  | .wakeSend _ t, m => Mine m i t
  | .dropSender g, m => (m.workers g).pool = true
  | .storeEnd g v, m =>
      v = 1 ∧ m.writer = some i ∧ m.worker = some g ∨ v = 2 ∧ i = .run g ∧ g < m.count
  | .callRun g, m => g < m.count
  | .recv g, _ | .fetchAdd g, _ | .wakeSignal g _, _ | .waitSignal g, _ | .dropReceiver g, _
  | .poll (.task g _), _ => i = .run g
  | .poll (.awaited f), _ | .waitAwait f, _ | .returnAwait f, _ => i = .await f
  | _, _ => True

/-- The invariant of the memory. -/
structure Inv (m : Shared P) : Prop where
  /-- A writer is alone. -/
  alone : ∀ i, m.writer = some i → m.readers = []
  /-- A worker that is not made yet. -/
  fresh : ∀ g, m.count ≤ g → (m.workers g).endFlag = 0 ∧ (m.workers g).pool = false ∧
    (m.workers g).started = false ∧ (m.workers g).channel = []
  /-- The worker in `MVSync.worker` is a registered one. -/
  registered : ∀ g, m.worker = some g → g < m.count ∧ (m.workers g).pool = false
  /-- A task whose worker was woken was moved. -/
  moved : ∀ p ∈ m.delivered, m.owner p.2 ≠ none
  accepted : ∀ p ∈ m.accepted, p ∈ m.submitted
  ends : ∀ g ∈ m.ends, (m.workers g).endFlag ≠ 0

/-- What thread `j` sees of a step of another thread. -/
structure Rely (j : Tid) (m m' : Shared P) : Prop where
  mine : ∀ t, Mine m j t → Mine m' j t
  readers : j ∈ m.readers → j ∈ m'.readers
  writer : m.writer = some j → m'.writer = some j
  /-- The lock protects the field and the flags. -/
  worker : Holds m j → m'.worker = m.worker
  flags : Holds m j → ∀ g, (m'.workers g).endFlag = (m.workers g).endFlag ∨
    (m'.workers g).endFlag = 2
  pool : ∀ g, (m.workers g).pool = true → (m'.workers g).pool = true
  submitted : ∀ p ∈ m.submitted, p ∈ m'.submitted
  ended : ∀ g, (m.workers g).endFlag ≠ 0 → (m'.workers g).endFlag ≠ 0
  count : m.count ≤ m'.count

theorem Inv.lt_of_pool (h : Inv m) (hg : (m.workers g).pool = true) : g < m.count := by
  by_contra hlt
  simp [(h.fresh g (Nat.le_of_not_lt hlt)).2.1] at hg

theorem Open.lt_count (h : Open m i g) (hi : Inv m) : g < m.count := by
  rcases h with hpool | ⟨-, hw, -⟩
  · exact hi.lt_of_pool hpool
  · exact (hi.registered g hw).1

theorem Inv.init : Inv (.init : Shared P) where
  alone i hi := by cases hi
  fresh g _ := ⟨rfl, rfl, rfl, rfl⟩
  registered g hg := by cases hg
  moved p hp := by cases hp
  accepted p hp := by cases hp
  ends g hg := by cases hg

/-- A writer is alone, so whoever holds the lock is the writer. -/
theorem Inv.writer_eq (h : Inv m) (hw : m.writer = some i) (hj : Holds m j) : j = i := by
  rcases hj with hj | hj
  · rw [h.alone i hw] at hj
    cases hj
  · exact Option.some.inj (hj.symm.trans hw)

/-! ## What an operation keeps -/

/-- The flag of a worker is only stored. -/
theorem Op.endFlag (hi : Inv m) (g : WorkerId) :
    ((o.exec m).workers g).endFlag = (m.workers g).endFlag ∨
      o = .storeEnd g ((o.exec m).workers g).endFlag := by
  have hmk := o.makes m g
  generalize (o.exec m).workers g = w at hmk ⊢
  cases hmk with
  | registered hg => exact .inl ((hi.fresh g (Nat.le_of_eq hg.symm)).1.symm)
  | new hg => exact .inl ((hi.fresh g (Nat.le_of_eq hg.symm)).1.symm)
  | storeEnd => exact .inr rfl
  | _ => exact .inl rfl

/-- Only the thread of its `run`, and a writer, store the flag of a worker. -/
theorem Op.Pre.endFlag (hp : o.Pre i m) (hi : Inv m) (g : WorkerId) :
    ((o.exec m).workers g).endFlag = (m.workers g).endFlag ∨
      i = .run g ∧ ((o.exec m).workers g).endFlag = 2 ∨
      m.writer = some i ∧ m.worker = some g ∧ ((o.exec m).workers g).endFlag = 1 := by
  rcases Op.endFlag hi g with h | h
  · exact .inl h
  · rw [h] at hp
    rcases hp with ⟨hv, hw, hg⟩ | ⟨hv, he, -⟩
    · exact .inr (.inr ⟨hw, hg, hv⟩)
    · exact .inr (.inl ⟨he, hv⟩)

/-- The flag of a worker is not taken back. -/
theorem Op.Pre.ended (hp : o.Pre i m) (hi : Inv m) (g : WorkerId)
    (hg : (m.workers g).endFlag ≠ 0) : ((o.exec m).workers g).endFlag ≠ 0 := by
  rcases hp.endFlag hi g with h | ⟨-, h⟩ | ⟨-, -, h⟩
  · exact h ▸ hg
  · simp [h]
  · simp [h]

/-- A worker of the pool stays one. -/
theorem Op.pool (hg : g < m.count) :
    ((o.exec m).workers g).pool = (m.workers g).pool := by
  have hmk := o.makes m g
  generalize (o.exec m).workers g = w at hmk ⊢
  cases hmk with
  | registered he => exact absurd he (Nat.ne_of_lt hg)
  | new he => exact absurd he (Nat.ne_of_lt hg)
  | _ => rfl

/-- Tasks are only taken from a channel by the loop of its worker. -/
theorem Op.channel (hi : Inv m) (ho : o ≠ .recv g) :
    ((o.exec m).workers g).channel = (m.workers g).channel ∨
      ∃ x b, o = .send g x b ∧
        ((o.exec m).workers g).channel = (m.workers g).channel ++ [x] := by
  have hmk := o.makes m g
  generalize (o.exec m).workers g = w at hmk ⊢
  cases hmk with
  | registered hg => exact .inl (hi.fresh g (Nat.le_of_eq hg.symm)).2.2.2.symm
  | new hg => exact .inl (hi.fresh g (Nat.le_of_eq hg.symm)).2.2.2.symm
  | send => exact .inr ⟨_, _, rfl, rfl⟩
  | recv => exact absurd rfl ho
  | _ => exact .inl rfl

theorem Op.mem_channel (hi : Inv m) (ho : o ≠ .recv g) {x : Task}
    (hx : x ∈ (m.workers g).channel) : x ∈ ((o.exec m).workers g).channel := by
  rcases Op.channel hi ho with h | ⟨y, b, -, h⟩
  · exact h ▸ hx
  · exact h ▸ List.mem_append_left _ hx

/-- The histories only grow. -/
theorem Op.submitted (o : Op P) (m : Shared P) : ∀ p ∈ m.submitted, p ∈ (o.exec m).submitted := by
  intro p hp
  cases o with
  | send g x submit =>
      cases submit with
      | true => exact List.mem_cons_of_mem _ hp
      | false => exact hp
  | _ => exact hp

/-- Workers are only made. -/
theorem Op.count (o : Op P) (m : Shared P) :
    (o.exec m).count = m.count ∨
      (o.exec m).count = m.count + 1 ∧ ((∃ b, o = .replaceWorker b) ∨ ∃ n, o = .newWorker n) := by
  cases o with
  | replaceWorker b => exact .inr ⟨rfl, .inl ⟨b, rfl⟩⟩
  | newWorker n => exact .inr ⟨rfl, .inr ⟨n, rfl⟩⟩
  | _ => exact .inl rfl

theorem Op.le_count (o : Op P) (m : Shared P) : m.count ≤ (o.exec m).count := by
  rcases o.count m with h | ⟨h, -⟩
  · exact Nat.le_of_eq h.symm
  · exact h ▸ Nat.le_succ _

/-- A lock that another thread holds stays with it. -/
theorem Op.Pre.holds (hp : o.Pre i m) (hj : j ≠ i) :
    (j ∈ m.readers → j ∈ (o.exec m).readers) ∧
      (m.writer = some j → (o.exec m).writer = some j) := by
  cases hl : o.locks with
  | false =>
      obtain ⟨hr, hw⟩ := Op.exec_readers (m := m) hl
      rw [hr, hw]
      exact ⟨fun h => h, fun h => h⟩
  | true =>
      cases o with
      | readLock k => exact ⟨fun h => List.mem_cons_of_mem _ h, fun h => h⟩
      | writeLock k =>
          obtain ⟨rfl, hw, hr⟩ := hp
          refine ⟨fun h => h, fun h => ?_⟩
          rw [hw] at h
          cases h
      | unlock k note =>
          obtain ⟨rfl, hh, -⟩ := hp
          have hread : j ∈ m.readers → j ∈ m.readers.erase k :=
            fun h => (List.mem_erase_of_ne hj).mpr h
          have hwrite : m.writer = some j →
              (if m.writer = some k then none else m.writer) = some j := by
            intro h
            rw [if_neg (by rw [h]; exact fun he => hj (Option.some.inj he)), h]
          exact ⟨hread, hwrite⟩
      | _ => cases hl

/-- A thread that holds the lock keeps `MVSync.worker` from the others. -/
theorem Op.Pre.worker (hp : o.Pre i m) (hi : Inv m) (hj : j ≠ i) (hh : Holds m j) :
    (o.exec m).worker = m.worker := by
  refine Op.exec_worker fun b hb => ?_
  subst hb
  exact hj (hi.writer_eq hp.1 hh)

/-- A task stays with the thread that it was moved to. -/
theorem Op.Pre.mine (hp : o.Pre i m) (hj : j ≠ i) (ht : Mine m j t) : Mine (o.exec m) j t where
  owner := by
    cases o with
    | own u k =>
        obtain ⟨rfl, hu⟩ := hp
        have hne : t ≠ u := by
          intro he
          subst he
          simp [ht.owner] at hu
        simpa [Op.exec, hne] using ht.owner
    | _ =>
        rw [Op.exec_owner (by simp)]
        exact ht.owner
  delivered := by
    cases o with
    | wakeSend g u =>
        have hne : t ≠ u := by
          intro he
          subst he
          exact hj (Option.some.inj (ht.owner.symm.trans hp.owner))
        intro k
        simpa [Op.exec, hne] using ht.delivered k
    | _ =>
        rw [Op.exec_delivered (by simp)]
        exact ht.delivered

theorem Op.Pre.rely (hp : o.Pre i m) (hi : Inv m) (hj : j ≠ i) : Rely j m (o.exec m) where
  mine _ ht := hp.mine hj ht
  readers := (hp.holds hj).1
  writer := (hp.holds hj).2
  worker hh := hp.worker hi hj hh
  flags := by
    intro hh g
    rcases hp.endFlag hi g with h | ⟨-, h⟩ | ⟨hw, -, -⟩
    · exact .inl h
    · exact .inr h
    · exact absurd (hi.writer_eq hw hh) hj
  pool g hg := (Op.pool (hi.lt_of_pool hg)).trans hg
  submitted := o.submitted m
  ended := hp.ended hi
  count := o.le_count m

/-- An operation keeps the invariant of the memory. -/
theorem Op.Pre.inv (hp : o.Pre i m) (hi : Inv m) : Inv (o.exec m) where
  alone := by
    intro k hk
    cases hl : o.locks with
    | false =>
        obtain ⟨hr, hw⟩ := Op.exec_readers (m := m) hl
        rw [hw] at hk
        rw [hr, hi.alone k hk]
    | true =>
        cases o with
        | readLock j =>
            have hw : m.writer = some k := hk
            rw [hp.2] at hw
            cases hw
        | writeLock j => exact hp.2.2
        | unlock j note =>
            have hw : (if m.writer = some j then none else m.writer) = some k := hk
            split at hw
            · cases hw
            · show m.readers.erase j = []
              rw [hi.alone k hw]
              rfl
        | _ => cases hl
  fresh := by
    intro g hg
    have hle : m.count ≤ g := by
      rcases o.count m with h | ⟨h, -⟩
      · exact h ▸ hg
      · exact Nat.le_of_lt (show m.count + 1 ≤ g from h ▸ hg)
    obtain ⟨hf, hpool, hs, hc⟩ := hi.fresh g hle
    have hmk := o.makes m g
    generalize (o.exec m).workers g = w at hmk ⊢
    cases hmk with
    | registered h => exact ⟨rfl, rfl, rfl, rfl⟩
    | new h =>
        have hlt : m.count + 1 ≤ g := hg
        exact absurd h (Nat.ne_of_gt hlt)
    | storeEnd =>
        rcases hp with ⟨-, -, hw⟩ | ⟨-, -, hlt⟩
        · exact absurd (hi.registered g hw).1 (Nat.not_lt_of_le hle)
        · exact absurd hlt (Nat.not_lt_of_le hle)
    | callRun => exact absurd hp (Nat.not_lt_of_le hle)
    | send => exact absurd (hp.2.lt_count hi) (Nat.not_lt_of_le hle)
    | recv => exact ⟨hf, hpool, hs, by rw [hc]; rfl⟩
    | _ => exact ⟨hf, hpool, hs, hc⟩
  registered := by
    intro g hg
    by_cases ho : ∃ b, o = .replaceWorker b
    · obtain ⟨b, rfl⟩ := ho
      obtain rfl : m.count = g := Option.some.inj hg
      exact ⟨Nat.lt_succ_self _, by simp [Op.exec, WorkerThread.registered]⟩
    · rw [Op.exec_worker fun b hb => ho ⟨b, hb⟩] at hg
      obtain ⟨hlt, hpool⟩ := hi.registered g hg
      refine ⟨?_, (Op.pool hlt).trans hpool⟩
      rcases o.count m with h | ⟨h, -⟩
      · exact h ▸ hlt
      · exact h ▸ Nat.lt_succ_of_lt hlt
  moved := by
    intro p ht
    cases o with
    | own u k =>
        by_cases he : p.2 = u
        · simp [Op.exec, he]
        · simpa [Op.exec, he] using hi.moved p ht
    | wakeSend g u =>
        rcases List.mem_cons.mp ht with rfl | ht
        · exact fun h => by simp [Op.exec, Shared.modify, hp.owner] at h
        · exact hi.moved p ht
    | _ =>
        rw [Op.exec_delivered (by simp)] at ht
        rw [Op.exec_owner (by simp)]
        exact hi.moved p ht
  accepted := by
    intro p ha
    refine o.submitted m p ?_
    cases o with
    | unlock k note =>
        cases note with
        | accepted g t =>
            rcases List.mem_cons.mp ha with rfl | ha
            · exact hp.2.2
            · exact hi.accepted p ha
        | nothing => exact hi.accepted p ha
        | ended g => exact hi.accepted p ha
    | _ => exact hi.accepted p ha
  ends := by
    intro g hg
    refine hp.ended hi g ?_
    cases o with
    | unlock k note =>
        cases note with
        | ended h =>
            rcases List.mem_cons.mp hg with rfl | hg
            · exact hp.2.2
            · exact hi.ends g hg
        | nothing => exact hi.ends g hg
        | accepted h t => exact hi.ends g hg
    | _ => exact hi.ends g hg

/-! ## What a thread knows -/

theorem Holds.mono (h : Holds m j) (hr : Rely j m m') : Holds m' j := h.imp hr.readers hr.writer

theorem Open.mono (h : Open m j g) (hr : Rely j m m') : Open m' j g := by
  rcases h with hpool | ⟨hh, hw, hf⟩
  · exact .inl (hr.pool g hpool)
  · refine .inr ⟨hh.mono hr, (hr.worker hh).trans hw, fun he => ?_⟩
    rcases hr.flags hh g with h | h
    · exact hf (h.symm.trans he)
    · rw [h] at he
      cases he

theorem CallPc.Knows.mono {p : CallPc} (h : p.Knows m j) (hr : Rely j m m') : p.Knows m' j := by
  cases p with
  | lock k => exact fun x hx => hr.mine x.id (h x hx)
  | check k =>
      refine ⟨fun x hx => hr.mine x.id (h.1 x hx), ?_⟩
      have hk := h.2
      unfold Call.Locked at hk ⊢
      split at hk
      · exact (if_pos ‹_›).mpr (hr.writer hk)
      · exact (if_neg ‹_›).mpr (hr.readers hk)
  | replaceWorker x b =>
      obtain ⟨hx, hw, hf⟩ := h
      refine ⟨hr.mine x.id hx, hr.writer hw, ?_⟩
      simp only [Shared.mainThreadFinished] at hf ⊢
      rw [hr.worker (.inr hw)]
      split
      · rfl
      case h_2 g he =>
        rw [he] at hf
        rcases hr.flags (.inr hw) g with hg | hg
        · simpa [WorkerThread.finished, hg] using hf
        · simp [WorkerThread.finished, hg]
  | send k g x p =>
      obtain ⟨hx, hopen, hk, hreg, hsub⟩ := h
      refine ⟨hr.mine x.id hx, hopen.mono hr, hk.imp_right fun hh => hh.mono hr, fun he => ?_,
        fun hp he => hr.submitted _ (hsub hp he)⟩
      obtain ⟨hw, hg⟩ := hreg he
      exact ⟨hr.writer hw, (hr.worker (.inr hw)).trans hg⟩
  | storeEnd g => exact ⟨hr.writer h.1, (hr.worker (.inr h.1)).trans h.2⟩
  | unlock r note =>
      refine ⟨h.1.mono hr, ?_⟩
      cases note with
      | accepted g t => exact hr.submitted _ h.2
      | ended g => exact hr.ended g h.2
      | nothing => trivial
  | dropWorker g => exact ⟨hr.writer h.1, (hr.worker (.inr h.1)).trans h.2⟩
  | callRun g => exact Nat.lt_of_lt_of_le h hr.count
  | _ => trivial

/-- A step inside a call of `WorkerThread::send` is seen like one of another thread. -/
theorem Rely.send (hp : o.Pre i m) (hi : Inv m) (hl : o.locks = false)
    (hr : ∀ b, o ≠ .replaceWorker b) (ho : ∀ t k, o ≠ .own t k) (hd : ∀ g t, o ≠ .wakeSend g t)
    (hs : ∀ g, o ≠ .storeEnd g 1) : Rely j m (o.exec m) where
  mine t ht := by
    refine ⟨?_, ?_⟩
    · rw [Op.exec_owner ho]
      exact ht.owner
    · rw [Op.exec_delivered hd]
      exact ht.delivered
  readers h := by rwa [(Op.exec_readers hl).1]
  writer h := by rwa [(Op.exec_readers hl).2]
  worker _ := Op.exec_worker hr
  flags _ g := by
    have hmk := o.makes m g
    generalize (o.exec m).workers g = w at hmk ⊢
    cases hmk with
    | registered h => exact absurd rfl (hr _)
    | new h => exact .inl (hi.fresh g (Nat.le_of_eq h.symm)).1.symm
    | storeEnd =>
        rcases hp with ⟨rfl, -⟩ | ⟨rfl, -⟩
        · exact absurd rfl (hs g)
        · exact .inr rfl
    | _ => exact .inl rfl
  pool g hg := (Op.pool (hi.lt_of_pool hg)).trans hg
  submitted := o.submitted m
  ended := hp.ended hi
  count := o.le_count m

/-! ## The steps of user code -/

theorem Call.Locked.holds {k : Call} (h : k.Locked m i) : Holds m i := by
  unfold Call.Locked at h
  split at h
  · exact .inr h
  · exact .inl h

/-- User code performs operations that it may perform. -/
theorem CallStep.pre {p p' : CallPc} (h : CallStep i m p p' o) (hk : p.Knows m i) :
    o.Pre i m := by
  cases h with
  | move hx ho => exact ⟨rfl, ho⟩
  | dispatch hg ho => exact ⟨rfl, ho⟩
  | dropSender hg => exact hg
  | writeLock hw hr _ => exact ⟨rfl, hw, hr⟩
  | readLock hw _ => exact ⟨rfl, hw⟩
  | replaceWorker => exact hk.2
  | send _ => exact ⟨hk.1, hk.2.1⟩
  | wakeSend => exact hk.1
  | storeEnd => exact .inl ⟨rfl, hk⟩
  | unlock => exact ⟨rfl, hk⟩
  | dropWorker => exact ⟨rfl, .inr hk.1, trivial⟩
  | callRun => exact hk
  | _ => trivial

/-- A step of user code establishes what the thread knows next. -/
theorem CallStep.knows {p p' : CallPc} (h : CallStep i m p p' o) (hi : Inv m)
    (hk : p.Knows m i) : p'.Knows (o.exec m) i := by
  cases h with
  | call hx =>
      intro x hx'
      rw [hx] at hx'
      cases hx'
  | move hx ho =>
      intro x hx'
      rw [hx] at hx'
      cases hx'
      exact ⟨by simp [Op.exec], fun k ht => hi.moved _ ht ho⟩
  | dispatch hg ho =>
      refine ⟨⟨by simp [Op.exec], fun k ht => hi.moved _ ht ho⟩, .inl hg, .inl rfl, ?_, ?_⟩
      · intro he
        cases he
      · intro hp
        exact absurd rfl hp
  | writeLock hw hr hk' =>
      refine ⟨fun x hx => ⟨(hk x hx).owner, (hk x hx).delivered⟩, ?_⟩
      simp [Call.Locked, hk', Op.exec]
  | readLock hw hk' =>
      refine ⟨fun x hx => ⟨(hk x hx).owner, (hk x hx).delivered⟩, ?_⟩
      simp [Call.Locked, hk', Op.exec]
  | register hf => exact ⟨hk.1 _ rfl, hk.2, hf⟩
  | submit hg he =>
      have hh := hk.2.holds
      refine ⟨hk.1 _ rfl, .inr ⟨hh, hg, ?_⟩, .inr hh, ?_, ?_⟩
      · rw [show ((Op.tau.exec m).workers _).endFlag = 0 from he]
        simp
      · intro hc
        cases hc
      · intro hp
        exact absurd rfl hp
  | endMain hg _ => exact ⟨hk.2, hg⟩
  | ended hg he => exact ⟨hk.2.holds, he⟩
  | answer => exact ⟨hk.2.holds, trivial⟩
  | @replaceWorker x b =>
      obtain ⟨hx, hw, -⟩ := hk
      have hflag : (((Op.replaceWorker b).exec m).workers m.count).endFlag ≠ 1 := by
        simp [Op.exec, WorkerThread.registered]
      exact ⟨⟨hx.owner, hx.delivered⟩, .inr ⟨.inr hw, rfl, hflag⟩, .inr (.inr hw),
        fun _ => ⟨hw, rfl⟩, fun hp => absurd rfl hp⟩
  | @send k g x hr =>
      have hrely : Rely i m ((Op.send g x (k == .submitToMainThread)).exec m) :=
        .send (CallStep.pre (.send hr) hk) hi rfl (by simp) (by simp) (by simp) (by simp)
      obtain ⟨hx, hopen, hh, hreg, -⟩ := CallPc.Knows.mono hk hrely
      refine ⟨hx, hopen, hh, hreg, fun _ he => ?_⟩
      subst he
      exact List.mem_cons_self
  | @fail k g x hr =>
      obtain ⟨-, -, hh, -, -⟩ := hk
      cases k with
      | dispatcher => trivial
      | registerMainThread => exact ⟨hh.resolve_left (by simp), trivial⟩
      | submitToMainThread => exact ⟨hh.resolve_left (by simp), trivial⟩
  | @fetchSub k g x =>
      have hrely : Rely i m ((Op.fetchSub g).exec m) :=
        .send (i := i) trivial hi rfl (by simp) (by simp) (by simp) (by simp)
      obtain ⟨hx, hopen, hh, hreg, hsub⟩ := CallPc.Knows.mono hk hrely
      exact ⟨hx, hopen, hh, hreg, fun _ => hsub (by simp)⟩
  | @wakeSend k g x =>
      obtain ⟨-, -, hh, hreg, hsub⟩ := hk
      cases k with
      | dispatcher => trivial
      | registerMainThread => exact hreg rfl
      | submitToMainThread =>
          exact ⟨hh.resolve_left (by simp), hsub (by simp) rfl⟩
  | storeEnd => exact ⟨.inr hk.1, by simp [Note.Knows, Op.exec]⟩
  | dropWorker => exact (hi.registered _ hk.2).1
  | _ => trivial

/-! ## The loops -/

/-- What the loop of a worker knows: the worker was made. -/
def RunPc.Knows (m : Shared P) (g : WorkerId) : RunPc P → Prop
  | .idle => True
  | .poll _ call _ _ => g < m.count ∧ call.Knows m (.run g)
  | _ => g < m.count

/-- What an `await_sync` knows. -/
def AwaitPc.Knows (m : Shared P) (f : AwaitId) : AwaitPc → Prop
  | .poll call => call.Knows m (.await f)
  | _ => True

theorem RunStep.lt_count {p p' : RunPc P} (h : RunStep g m p p' o) (hi : Inv m)
    (hk : p.Knows m g) : g < m.count := by
  cases h with
  | start hs =>
      by_contra hlt
      simp [(hi.fresh g (Nat.le_of_not_lt hlt)).2.2.1] at hs
  | user => exact hk.1
  | pending => exact hk.1
  | ready => exact hk.1
  | panics => exact hk.1
  | writes => exact hk.1
  | _ => exact hk

theorem RunStep.pre {p p' : RunPc P} (h : RunStep g m p p' o) (hi : Inv m) (hk : p.Knows m g) :
    o.Pre (.run g) m := by
  have hlt := h.lt_count hi hk
  cases h with
  | user hc => exact hc.pre hk.2
  | store => exact .inr ⟨rfl, rfl, hlt⟩
  | _ => trivial

theorem RunStep.knows {p p' : RunPc P} (h : RunStep g m p p' o) (hi : Inv m)
    (hk : p.Knows m g) : p'.Knows (o.exec m) g := by
  have hlt : g < (o.exec m).count := Nat.lt_of_lt_of_le (h.lt_count hi hk) (o.le_count m)
  cases h with
  | user hc => exact ⟨hlt, hc.knows hi hk.2⟩
  | poll => exact ⟨hlt, trivial⟩
  | writes => exact ⟨hlt, trivial⟩
  | _ => exact hlt

theorem AwaitStep.pre {f : AwaitId} {p p' : AwaitPc} (h : AwaitStep f m p p' o)
    (hk : p.Knows m f) : o.Pre (.await f) m := by
  cases h with
  | user hc => exact hc.pre hk
  | _ => trivial

theorem AwaitStep.knows {f : AwaitId} {p p' : AwaitPc} (h : AwaitStep f m p p' o) (hi : Inv m)
    (hk : p.Knows m f) : p'.Knows (o.exec m) f := by
  cases h with
  | user hc => exact hc.knows hi hk
  | _ => trivial

/-! ## The outline -/

/-- What a thread knows at a position. -/
def Tid.Knows (m : Shared P) : (i : Tid) → Tid.Pc P i → Prop
  | .user i, p => CallPc.Knows m (.user i) p
  | .run g, p => RunPc.Knows m g p
  | .await f, p => AwaitPc.Knows m f p

theorem Tid.Knows.mono {p : Tid.Pc P j} (h : j.Knows m p) (hr : Rely j m m') : j.Knows m' p := by
  cases j with
  | user k => exact CallPc.Knows.mono h hr
  | run g =>
      cases p with
      | idle => trivial
      | poll x call kept todo => exact ⟨Nat.lt_of_lt_of_le h.1 hr.count, h.2.mono hr⟩
      | _ => exact Nat.lt_of_lt_of_le h hr.count
  | await f =>
      cases p with
      | poll call => exact CallPc.Knows.mono h hr
      | _ => trivial

theorem Tid.Step.pre {p p' : Tid.Pc P i} (h : i.Step m p p' o) (hi : Inv m) (hk : i.Knows m p) :
    o.Pre i m := by
  cases i with
  | user k => exact CallStep.pre h hk
  | run g => exact RunStep.pre h hi hk
  | await f => exact AwaitStep.pre h hk

theorem Tid.Step.knows {p p' : Tid.Pc P i} (h : i.Step m p p' o) (hi : Inv m)
    (hk : i.Knows m p) : i.Knows (o.exec m) p' := by
  cases i with
  | user k => exact CallStep.knows h hi hk
  | run g => exact RunStep.knows h hi hk
  | await f => exact AwaitStep.knows h hi hk

/-- The proof outline. -/
def hold (P : Type) : System.Outline (main P) where
  inv := Inv
  loc i p m := i.Knows m p
  pre := Op.Pre
  rely := Rely
  allowed h hi hk := (next_step h).pre hi hk
  established h hi hk := (next_step h).knows hi hk
  kept hi hp := hp.inv hi
  guarantee hi hp hj := hp.rely hi hj
  stable h hr := h.mono hr

theorem Reachable.hold {s : (main P).State} (h : Reachable s) : (hold P).Holds s := by
  have hinit : (Main.hold P).Holds init := by
    refine ⟨Inv.init, fun i => ?_⟩
    cases i <;> trivial
  exact (Main.hold P).sound hinit h

theorem Reachable.inv {s : (main P).State} (h : Reachable s) : Inv s.mem := h.hold.inv

/-- A step performs an operation that its thread may perform. -/
theorem Reachable.step_cases {s s' : (main P).State} {a : (main P).Action} (h : Reachable s)
    (hs : s.step a = some s') :
    ∃ q o, a.tid.Step s.mem (s.pc a.tid) q o ∧ o.Pre a.tid s.mem ∧ s' = s.move a.tid q o := by
  obtain ⟨q, o, hn, he⟩ := Main.step_cases hs
  exact ⟨q, o, hn, hn.pre h.inv (h.hold.loc a.tid), he⟩

end MVSync.Main
