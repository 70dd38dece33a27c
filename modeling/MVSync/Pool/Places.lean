import MVSync.Concurrency.Ownership
import MVSync.Pool.History

/-!
# Where the tasks are

A task is with the user, in the submission channel, in the channel of a worker,
or in a local variable of a thread, and it is there once.  `Places` says so of
the channels.  What is in the variables of a thread is known to that thread
(`Shared.Has`).

Three facts do the work.  An operation leaves every place alone that it does not
touch (`Op.frame`), an operation on a task changes the stage of that one task
(`Shared.Has.stageOf`), and the other operations move a task from one place to
another.
-/

namespace MVSync

open Concurrency

variable {V P : Type} {prog : Program V P} {m m' : Shared V P} {i : Tid} {t : TaskId}
  {o o' : Owner}

/-! ## What is at a place -/

/-- `l` lists the tasks at a place with their stages, each once. -/
structure Shared.Has (prog : Program V P) (m : Shared V P) (o : Owner)
    (l : List (Task × Stage V P)) : Prop where
  holds : Holds (fun t => (m.cell t).owner) (fun t => (m.cell t).stage) o
    (l.map fun x => (x.1.id, x.2))
  built : ∀ x ∈ l, prog.Built x.1

/-- Nothing happens at a place. -/
def Frame (o : Owner) (m m' : Shared V P) : Prop :=
  ∀ t, ((m'.cell t).owner = o ↔ (m.cell t).owner = o) ∧
    ((m.cell t).owner = o → (m'.cell t).stage = (m.cell t).stage)

namespace Frame

theorem refl (o : Owner) (m : Shared V P) : Frame o m m := fun _ => ⟨Iff.rfl, fun _ => rfl⟩

theorem trans {m'' : Shared V P} (h : Frame o m m') (h' : Frame o m' m'') : Frame o m m'' :=
  fun t => ⟨(h' t).1.trans (h t).1,
    fun ht => ((h' t).2 ((h t).1.mpr ht)).trans ((h t).2 ht)⟩

/-- The cell that changes is at another place. -/
theorem modify {f : Cell V P → Cell V P} (ho : (m.cell t).owner ≠ o)
    (ho' : (f (m.cell t)).owner ≠ o) : Frame o m (m.modify t f) := by
  intro u
  by_cases hu : u = t
  · subst hu
    rw [Shared.modify_cell_self]
    exact ⟨iff_of_false ho' ho, fun h => absurd h ho⟩
  · rw [Shared.modify_cell_of_ne _ _ hu]
    exact ⟨Iff.rfl, fun _ => rfl⟩

/-- The change is about neither the place nor the stage. -/
theorem keep {f : Cell V P → Cell V P} (ho : (f (m.cell t)).owner = (m.cell t).owner)
    (hs : (f (m.cell t)).stage = (m.cell t).stage) : Frame o m (m.modify t f) := by
  intro u
  by_cases hu : u = t
  · subst hu
    rw [Shared.modify_cell_self, ho]
    exact ⟨Iff.rfl, fun _ => hs⟩
  · rw [Shared.modify_cell_of_ne _ _ hu]
    exact ⟨Iff.rfl, fun _ => rfl⟩

theorem move {ts : List TaskId} (ho : ∀ t ∈ ts, (m.cell t).owner ≠ o) (ho' : o' ≠ o) :
    Frame o m (m.move ts o') := by
  intro u
  simp only [Shared.move]
  split
  case isTrue hu => exact ⟨iff_of_false ho' (ho u hu), fun _ => rfl⟩
  case isFalse => exact ⟨Iff.rfl, fun _ => rfl⟩

theorem drop (ho : o' ≠ o) (hg : o ≠ .gone) : Frame o m (m.drop o') := by
  intro u
  simp only [Shared.drop]
  split
  case isTrue hu => exact ⟨iff_of_false hg.symm (hu ▸ ho), fun _ => rfl⟩
  case isFalse => exact ⟨Iff.rfl, fun _ => rfl⟩

end Frame

namespace Shared.Has

variable {x : Task} {st : Stage V P} {l l' : List (Task × Stage V P)}

theorem frame (h : m.Has prog o l) (hf : Frame o m m') : m'.Has prog o l :=
  ⟨h.holds.congr (fun t => (hf t).1) (fun t => (hf t).2), h.built⟩

theorem perm (h : m.Has prog o l) (hp : l.Perm l') : m.Has prog o l' :=
  ⟨h.holds.perm (hp.map _), fun x hx => h.built x (hp.mem_iff.mpr hx)⟩

theorem head_owner (h : m.Has prog o ((x, st) :: l)) : (m.cell x.id).owner = o :=
  h.holds.head_owner

theorem head_stage (h : m.Has prog o ((x, st) :: l)) : (m.cell x.id).stage = st :=
  h.holds.head_stage

theorem head_built (h : m.Has prog o ((x, st) :: l)) : prog.Built x :=
  h.built _ List.mem_cons_self

theorem head_at (h : m.Has prog (.thread i) ((x, st) :: l)) : m.At i x.id st :=
  ⟨h.head_owner, h.head_stage⟩

/-- The thread preferences of a task are not part of its identity. -/
theorem head_change (h : m.Has prog o ((x, st) :: l)) (y : Task) (hy : y.id = x.id)
    (hb : prog.Built y) : m.Has prog o ((y, st) :: l) := by
  refine ⟨by simpa [hy] using h.holds, fun z hz => ?_⟩
  rcases List.mem_cons.mp hz with rfl | hz
  · exact hb
  · exact h.built z (List.mem_cons_of_mem _ hz)

theorem tail_built (h : m.Has prog o ((x, st) :: l)) : ∀ y ∈ l, prog.Built y.1 :=
  fun y hy => h.built y (List.mem_cons_of_mem _ hy)

theorem exists_mem (h : m.Has prog o l) (ht : (m.cell t).owner = o) :
    ∃ x, x.id = t ∧ (x, (m.cell t).stage) ∈ l := by
  obtain ⟨⟨x, st⟩, hx, he⟩ := List.mem_map.mp (h.holds.mem_of_owner ht)
  obtain ⟨rfl, hst⟩ := Prod.mk.inj he
  exact ⟨x, rfl, hst ▸ hx⟩

theorem owner_of_mem (h : m.Has prog o l) (hx : (x, st) ∈ l) : (m.cell x.id).owner = o :=
  h.holds.owner_eq (List.mem_map.mpr ⟨_, hx, rfl⟩)

theorem stage_of_mem (h : m.Has prog o l) (hx : (x, st) ∈ l) : (m.cell x.id).stage = st :=
  h.holds.stage_eq (List.mem_map.mpr ⟨_, hx, rfl⟩)

theorem nil_iff : m.Has prog o [] ↔ ∀ t, (m.cell t).owner ≠ o := by
  constructor
  · exact fun h => Holds.nil_iff.mp h.holds
  · exact fun h => ⟨Holds.nil_iff.mpr h, by simp⟩

/-- The maps of a memory with one cell changed. -/
theorem modify_maps (m : Shared V P) (t : TaskId) (f : Cell V P → Cell V P) :
    (fun u => ((m.modify t f).cell u).owner) =
        Function.update (fun u => (m.cell u).owner) t (f (m.cell t)).owner ∧
      (fun u => ((m.modify t f).cell u).stage) =
        Function.update (fun u => (m.cell u).stage) t (f (m.cell t)).stage := by
  constructor <;> funext u <;> by_cases hu : u = t
  · subst hu; simp
  · simp [Shared.modify_cell_of_ne _ _ hu, hu]
  · subst hu; simp
  · simp [Shared.modify_cell_of_ne _ _ hu, hu]

/-- A task at a place moves on to another stage. -/
theorem setStage (h : m.Has prog o ((x, st) :: l)) {f : Cell V P → Cell V P}
    (ho : (f (m.cell x.id)).owner = (m.cell x.id).owner) {st' : Stage V P}
    (hs : (f (m.cell x.id)).stage = st') : (m.modify x.id f).Has prog o ((x, st') :: l) := by
  refine ⟨?_, fun y hy => ?_⟩
  · obtain ⟨h₁, h₂⟩ := modify_maps m x.id f
    rw [h₁, h₂, ho, hs, Function.update_eq_self]
    exact Holds.setStage h.holds st'
  · rcases List.mem_cons.mp hy with rfl | hy
    · exact h.head_built
    · exact h.tail_built y hy

/-- A task leaves a place. -/
theorem release (h : m.Has prog o ((x, st) :: l)) {f : Cell V P → Cell V P}
    (ho : (f (m.cell x.id)).owner ≠ o) : (m.modify x.id f).Has prog o l := by
  refine ⟨?_, h.tail_built⟩
  obtain ⟨h₁, h₂⟩ := modify_maps m x.id f
  rw [h₁, h₂]
  refine (Holds.setStage_of_ne (Holds.release h.holds ho) ?_ _)
  simpa using ho

/-- A task comes to a place. -/
theorem acquire (h : m.Has prog o l) {f : Cell V P → Cell V P} (ho : (m.cell x.id).owner ≠ o)
    (ho' : (f (m.cell x.id)).owner = o) (hb : prog.Built x) :
    (m.modify x.id f).Has prog o ((x, (f (m.cell x.id)).stage) :: l) := by
  refine ⟨?_, fun y hy => ?_⟩
  · obtain ⟨h₁, h₂⟩ := modify_maps m x.id f
    rw [h₁, h₂, ho']
    exact Holds.setStage (Holds.acquire h.holds ho) _
  · rcases List.mem_cons.mp hy with rfl | hy
    · exact hb
    · exact h.built y hy

end Shared.Has

/-! ## The frame of an operation -/

/-- The places that an operation of thread `i` touches. -/
def Op.touches (i : Tid) : Op V P → Owner → Prop
  | .beginSubmit _ _, o | .beginRun _ _, o => o = .thread i ∨ o = .user
  | .send _, o | .recv, o => o = .thread i ∨ o = .channel
  | .sendWorker w _, o | .recvWorker w, o => o = .thread i ∨ o = .workerChannel w
  | .dropDispatcher, o => o = .thread i ∨ o = .channel ∨ o = .gone
  | .failSubmit _, o | .dropCaller _, o | .dropTask _, o | .wakeQueue _ _ _, o =>
      o = .thread i ∨ o = .gone
  | _, o => o = .thread i

/-- The invariant of the places. -/
structure Places (prog : Program V P) (m : Shared V P) : Prop where
  user : ∀ t, (m.cell t).owner = .user → (m.cell t).stage = .fresh
  channel : m.Has prog .channel (m.channel.map fun x => (x, .fresh))
  workerChannel : ∀ w,
    m.Has prog (.workerChannel w) ((m.workerChannel w).map fun x => (x, .passed))
  /-- A worker only has tasks whose predecessor returned or panicked. -/
  handed : ∀ t w, (m.cell t).owner = .workerChannel w ∨ (m.cell t).owner = .thread (.worker w) →
    PredFinished prog m t
  /-- A task that is being settled is with the thread that settles it. -/
  settling : ∀ t, (m.cell t).stage.settling = true → ∃ i, (m.cell t).owner = .thread i
  /-- The result of a task without a successor goes to whom the handle went. -/
  unheld : ∀ t, prog.succ t = none → (m.cell t).handle = none → (m.cell t).result = none

/-- The head of the submission channel. -/
theorem Places.channel_owner (h : Places prog m) {x : Task} {l : List Task}
    (he : m.channel = x :: l) : (m.cell x.id).owner = .channel := by
  have hm : (x, Stage.fresh) ∈ m.channel.map fun x => (x, (Stage.fresh : Stage V P)) := by
    simp [he]
  exact h.channel.owner_of_mem hm

/-- The head of the channel of a worker. -/
theorem Places.workerChannel_owner (h : Places prog m) {w : WorkerId} {x : Task} {l : List Task}
    (he : m.workerChannel w = x :: l) : (m.cell x.id).owner = .workerChannel w := by
  have hm : (x, Stage.passed) ∈
      (m.workerChannel w).map fun x => (x, (Stage.passed : Stage V P)) := by
    simp [he]
  exact (h.workerChannel w).owner_of_mem hm

theorem Frame.advance {k : Taker} {st st' : Stage V P}
    (hk : k = .observer ∨ Entitled prog m i t st k) (ho : o ≠ .thread i) {f : Cell V P → Cell V P}
    (hown : (f (m.cell t)).owner = (m.cell t).owner)
    (hst : (f (m.cell t)).stage = (m.cell t).stage) :
    Frame o m (k.advance st' (m.modify t f)) := by
  have hf : Frame o m (m.modify t f) := .keep hown hst
  cases k with
  | continuation c =>
      obtain ⟨ha, hc⟩ := hk.resolve_left nofun
      have hne : c ≠ t := (Nat.ne_of_lt (Program.pred_lt hc)).symm
      have hown' : ((m.modify t f).cell c).owner ≠ o := by
        rw [(ha.modify_of_ne hne).1]
        exact ho.symm
      simp only [Taker.advance]
      exact hf.trans (.modify hown' hown')
  | handle => exact hf
  | observer => exact hf

theorem Shared.At.owner_ne {st : Stage V P} (h : m.At i t st) (ho : o ≠ .thread i) :
    (m.cell t).owner ≠ o := h.1 ▸ ho.symm

/-- The frame rule: an operation leaves the places alone that it does not
touch. -/
theorem Op.frame {op : Op V P} (hp : op.Pre prog i m) (hpl : Places prog m)
    (ht : ¬op.touches i o) : Frame o m (op.exec m) := by
  have step : ∀ {t st} {f : Cell V P → Cell V P}, m.At i t st → o ≠ .thread i →
      (f (m.cell t)).owner = (m.cell t).owner → Frame o m (m.modify t f) := by
    intro t st f ha ho hf
    exact .modify (ha.owner_ne ho) (hf ▸ ha.owner_ne ho)
  cases op <;> simp only [Op.touches, not_or] at ht <;> simp only [Op.exec]
  case tau => exact .refl _ _
  case invoke =>
    obtain ⟨-, st, ha, -⟩ := hp
    exact step ha ht rfl
  case bodyReturns =>
    obtain ⟨v, ha, -⟩ := hp
    exact step ha ht rfl
  case futurePanics =>
    obtain ⟨v, q, ha, -⟩ := hp
    exact step ha ht rfl
  case writeBuffer => exact step hp ht rfl
  case writeReady => exact step hp ht rfl
  case replace =>
    rcases hp.1 with ha | ⟨r, ha⟩
    · exact step ha ht rfl
    · exact step ha ht rfl
  case silent => exact hp.elim
  case waitSignal => exact .advance hp.2 ht rfl rfl
  case takeResult => exact .advance (.inr hp.2.2.1) ht rfl rfl
  case takeBuffer => exact .advance (.inr hp.2.2.1) ht rfl rfl
  case pollSignal => exact .keep rfl rfl
  case moveHandle => exact .keep rfl rfl
  case cancel => exact .keep rfl rfl
  case signalSem => exact .refl _ _
  case wakeSignal => exact step hp.1 ht rfl
  case wakeQueue t home site =>
    exact (Frame.modify (hp.1.owner_ne ht.1) (Ne.symm ht.2) :
      Frame o m (m.modify t fun c =>
        { c with queueWakes := c.queueWakes ++ [site], owner := .gone, stage := .settled site }))
  case recv =>
    obtain ⟨rfl, hc⟩ := hp
    split
    case h_1 he => exact absurd he hc
    case h_2 x l he =>
      have hx := hpl.channel_owner he
      exact (Frame.modify (hx ▸ Ne.symm ht.2) (Ne.symm ht.1) :
        Frame o m (m.modify x.id fun c => { c with owner := .thread .dispatcher }))
  case sendWorker w x =>
    exact (Frame.modify (hp.2.1.owner_ne ht.1) (Ne.symm ht.2) :
      Frame o m (m.modify x.id fun c => { c with owner := .workerChannel w, stage := .passed }))
  case dropDispatcher =>
    obtain ⟨rfl, -⟩ := hp
    exact (Frame.drop (Ne.symm ht.1) ht.2.2).trans (.drop (Ne.symm ht.2.1) ht.2.2)
  case recvWorker w =>
    obtain ⟨rfl, hc⟩ := hp
    split
    case h_1 he => exact absurd he hc
    case h_2 x l he =>
      have hx := hpl.workerChannel_owner he
      exact (Frame.modify (hx ▸ Ne.symm ht.2) (Ne.symm ht.1) :
        Frame o m (m.modify x.id fun c => { c with owner := .thread (.worker w) }))
  case replacePanicked t q w =>
    exact (step hp.2 ht rfl :
      Frame o m (m.modify t fun c => { c with state := .panicked q, stage := .finished }))
  case foundCancelled t w =>
    obtain ⟨-, ⟨v, ha⟩, -⟩ := hp
    exact (step ha ht rfl :
      Frame o m (m.modify t fun c => { c with finish := some .cancelled, stage := .finished }))
  case beginSubmit e ts =>
    obtain ⟨rfl, -, hu⟩ := hp
    exact .move (fun t h => hu t h ▸ Ne.symm ht.2) (Ne.symm ht.1)
  case beginRun e ts =>
    obtain ⟨rfl, -, hu⟩ := hp
    exact .move (fun t h => hu t h ▸ Ne.symm ht.2) (Ne.symm ht.1)
  case send x =>
    exact (Frame.modify (hp.2.1.owner_ne ht.1) (Ne.symm ht.2) :
      Frame o m (m.modify x.id fun c => { c with owner := .channel }))
  case failSubmit e =>
    obtain ⟨rfl, -⟩ := hp
    exact .drop (Ne.symm ht.1) ht.2
  case dropCaller e =>
    obtain ⟨rfl, -⟩ := hp
    exact .drop (Ne.symm ht.1) ht.2
  case pass => exact step hp.1 ht rfl
  case dropTask t => exact .modify (hp.2.owner_ne ht.1) (Ne.symm ht.2)
  all_goals exact .refl _ _

/-! ## Every operation keeps the places -/

theorem Places.init (cfg : Specs) : Places prog (.init cfg) where
  user _ _ := rfl
  channel := Shared.Has.nil_iff.mpr fun _ => nofun
  workerChannel _ := Shared.Has.nil_iff.mpr fun _ => nofun
  handed t w h := by rcases h with h | h <;> cases h
  settling t h := by cases h
  unheld _ _ _ := rfl

/-- No operation gives a task back to the user. -/
theorem Op.user {op : Op V P} (hp : op.Pre prog i m) (hpl : Places prog m)
    (hu : ((op.exec m).cell t).owner = .user) : ((op.exec m).cell t).stage = .fresh := by
  by_cases ht : op.touches i .user
  · have hmove : ∀ {ts : List TaskId} {e : CallerId},
        ((m.move ts (.thread (.caller e))).cell t).owner = .user →
        ((m.move ts (.thread (.caller e))).cell t).stage = .fresh := by
      intro ts e h
      simp only [Shared.move] at h ⊢
      split at h
      case isTrue => cases h
      case isFalse hn =>
        rw [if_neg hn]
        exact hpl.user t h
    cases op <;> simp [Op.touches] at ht
    case beginSubmit => exact hmove hu
    case beginRun => exact hmove hu
  · have hf := Op.frame hp hpl ht t
    rw [hf.2 (hf.1.mp hu)]
    exact hpl.user t (hf.1.mp hu)

theorem Shared.drop_owner (m : Shared V P) (ho : o ≠ .gone) (t : TaskId) :
    ((m.drop o).cell t).owner ≠ o := by
  simp only [Shared.drop]
  split
  · exact ho.symm
  · assumption

theorem Shared.drop_stage (m : Shared V P) (o : Owner) (t : TaskId) :
    ((m.drop o).cell t).stage = (m.cell t).stage := by
  simp only [Shared.drop]
  split <;> rfl

theorem Op.channel {op : Op V P} (hp : op.Pre prog i m) (hpl : Places prog m) :
    (op.exec m).Has prog .channel ((op.exec m).channel.map fun x => (x, .fresh)) := by
  by_cases ht : op.touches i .channel
  · cases op <;> simp [Op.touches] at ht
    case recv =>
      obtain ⟨rfl, hc⟩ := hp
      have hh := hpl.channel
      simp only [Op.exec]
      split
      case h_1 he => exact absurd he hc
      case h_2 x l he =>
        rw [he, List.map_cons] at hh
        have hr : (m.modify x.id fun c => { c with owner := .thread .dispatcher }).Has prog
            .channel (l.map fun x => (x, .fresh)) := hh.release (by simp)
        exact ⟨hr.holds, hr.built⟩
    case dropDispatcher =>
      exact Shared.Has.nil_iff.mpr fun t =>
        Shared.drop_owner (m.drop (.thread .dispatcher)) (o := .channel) (by simp) t
    case send x =>
      obtain ⟨-, ha, hb⟩ := hp
      have hacq : (m.modify x.id fun c => { c with owner := .channel }).Has prog .channel
          ((x, (m.cell x.id).stage) :: m.channel.map fun x => (x, .fresh)) :=
        hpl.channel.acquire (by simp [ha.1]) rfl hb
      rw [ha.2] at hacq
      have hperm := hacq.perm (List.perm_append_singleton _ _).symm
      simp only [Op.exec, List.map_append, List.map_cons, List.map_nil]
      exact ⟨hperm.holds, hperm.built⟩
  · have hc : (op.exec m).channel = m.channel := by
      refine Op.channel_eq ?_ (fun x => ?_) ?_
      all_goals
        rintro rfl
        simp [Op.touches] at ht
    rw [hc]
    exact hpl.channel.frame (Op.frame hp hpl ht)

theorem Op.workerChannel {op : Op V P} (hp : op.Pre prog i m) (hpl : Places prog m)
    (w : WorkerId) : (op.exec m).Has prog (.workerChannel w)
      (((op.exec m).workerChannel w).map fun x => (x, .passed)) := by
  by_cases ht : op.touches i (.workerChannel w)
  · cases op <;> simp [Op.touches] at ht
    case recvWorker w' =>
      subst ht
      obtain ⟨rfl, hc⟩ := hp
      have hh := hpl.workerChannel w
      simp only [Op.exec]
      split
      case h_1 he => exact absurd he hc
      case h_2 x l he =>
        rw [he, List.map_cons] at hh
        have hr : (m.modify x.id fun c => { c with owner := .thread (.worker w) }).Has prog
            (.workerChannel w) (l.map fun x => (x, .passed)) := hh.release (by simp)
        simp only [Function.update_self]
        exact ⟨hr.holds, hr.built⟩
    case sendWorker w' x =>
      subst ht
      obtain ⟨-, ha, hb, -, -⟩ := hp
      have hacq : (m.modify x.id fun c =>
          { c with owner := .workerChannel w, stage := .passed }).Has prog (.workerChannel w)
          ((x, .passed) :: (m.workerChannel w).map fun x => (x, .passed)) :=
        (hpl.workerChannel w).acquire (by simp [ha.1]) rfl hb
      have hperm := hacq.perm (List.perm_append_singleton _ _).symm
      simp only [Op.exec, Function.update_self, List.map_append, List.map_cons, List.map_nil]
      exact ⟨hperm.holds, hperm.built⟩
  · have hc : (op.exec m).workerChannel w = m.workerChannel w := by
      refine Op.workerChannel_eq ?_ fun x => ?_
      all_goals
        rintro rfl
        simp [Op.touches] at ht
    rw [hc]
    exact (hpl.workerChannel w).frame (Op.frame hp hpl ht)

/-- The ways of a task from one place to another. -/
inductive Op.Carries (t : TaskId) : Op V P → Owner → Owner → Prop where
  | recv : Carries t .recv .channel (.thread .dispatcher)
  | sendWorker (w : WorkerId) (x : Task) : x.id = t →
      Carries t (.sendWorker w x) (.thread .dispatcher) (.workerChannel w)
  | recvWorker (w : WorkerId) : Carries t (.recvWorker w) (.workerChannel w) (.thread (.worker w))
  | beginSubmit (e : CallerId) (ts : List TaskId) : t ∈ ts →
      Carries t (.beginSubmit e ts) .user (.thread (.caller e))
  | beginRun (e : CallerId) (ts : List TaskId) : t ∈ ts →
      Carries t (.beginRun e ts) .user (.thread (.caller e))
  | send (e : CallerId) (x : Task) : x.id = t → Carries t (.send x) (.thread (.caller e)) .channel
  | wakeQueue (i : Tid) (home : Bool) (site : Site) :
      Carries t (.wakeQueue t home site) (.thread i) .gone
  | dropTask (i : Tid) : Carries t (.dropTask t) (.thread i) .gone
  | dropDispatcher : Carries t .dropDispatcher (.thread .dispatcher) .gone
  | dropChannel : Carries t .dropDispatcher .channel .gone
  | failSubmit (e : CallerId) : Carries t (.failSubmit e) (.thread (.caller e)) .gone
  | dropCaller (e : CallerId) : Carries t (.dropCaller e) (.thread (.caller e)) .gone

theorem Shared.modify_owner {u : TaskId} {f : Cell V P → Cell V P}
    (hf : (f (m.cell u)).owner = (m.cell u).owner) :
    ((m.modify u f).cell t).owner = (m.cell t).owner := by
  by_cases ht : t = u
  · subst ht
    rw [Shared.modify_cell_self, hf]
  · rw [Shared.modify_cell_of_ne _ _ ht]

theorem Taker.advance_owner (k : Taker) (st : Stage V P) (m : Shared V P) (t : TaskId) :
    ((k.advance st m).cell t).owner = (m.cell t).owner := by
  cases k with
  | continuation c =>
      simp only [Taker.advance]
      exact Shared.modify_owner rfl
  | handle => rfl
  | observer => rfl

/-- What an operation can do with the place of a task. -/
theorem Op.owner_cases {op : Op V P} (hp : op.Pre prog i m) (hpl : Places prog m) (t : TaskId) :
    ((op.exec m).cell t).owner = (m.cell t).owner ∨
      op.Carries t (m.cell t).owner ((op.exec m).cell t).owner := by
  have carry : ∀ {x : TaskId} {f : Cell V P → Cell V P} {op : Op V P},
      (x = t → op.Carries t (m.cell x).owner (f (m.cell x)).owner) →
      ((m.modify x f).cell t).owner = (m.cell t).owner ∨
        op.Carries t (m.cell t).owner ((m.modify x f).cell t).owner := by
    intro x f op h
    by_cases hx : t = x
    · subst hx
      rw [Shared.modify_cell_self]
      exact .inr (h rfl)
    · rw [Shared.modify_cell_of_ne _ _ hx]
      exact .inl rfl
  have move : ∀ {ts : List TaskId} {e : CallerId} {op : Op V P},
      (∀ t ∈ ts, (m.cell t).owner = .user) →
      (t ∈ ts → op.Carries t .user (.thread (.caller e))) →
      ((m.move ts (.thread (.caller e))).cell t).owner = (m.cell t).owner ∨
        op.Carries t (m.cell t).owner ((m.move ts (.thread (.caller e))).cell t).owner := by
    intro ts e op hu h
    simp only [Shared.move]
    split
    case isTrue ht => exact .inr (hu t ht ▸ h ht)
    case isFalse => exact .inl rfl
  have drop : ∀ {o : Owner} {op : Op V P}, op.Carries t o .gone →
      ((m.drop o).cell t).owner = (m.cell t).owner ∨
        op.Carries t (m.cell t).owner ((m.drop o).cell t).owner := by
    intro o op h
    simp only [Shared.drop]
    split
    case isTrue ho => exact .inr (ho ▸ h)
    case isFalse => exact .inl rfl
  cases op <;> simp only [Op.exec]
  case waitSignal => exact .inl ((Taker.advance_owner _ _ _ _).trans (Shared.modify_owner rfl))
  case takeResult => exact .inl ((Taker.advance_owner _ _ _ _).trans (Shared.modify_owner rfl))
  case takeBuffer => exact .inl ((Taker.advance_owner _ _ _ _).trans (Shared.modify_owner rfl))
  case wakeQueue u home site =>
    refine carry fun hu => ?_
    rw [hp.1.1]
    exact hu ▸ .wakeQueue i home site
  case recv =>
    split
    · exact .inl rfl
    case h_2 x l he =>
      dsimp only
      refine carry fun _ => ?_
      rw [hpl.channel_owner he]
      exact .recv
  case sendWorker w x =>
    refine carry fun hx => ?_
    obtain ⟨rfl, ha, -⟩ := hp
    rw [ha.1]
    exact .sendWorker w x hx
  case dropDispatcher =>
    simp only [Shared.drop]
    split
    case isTrue ho =>
      right
      rw [ho]
      exact .dropDispatcher
    case isFalse =>
      split
      case isTrue ho => exact .inr (ho ▸ .dropChannel)
      case isFalse => exact .inl rfl
  case recvWorker w =>
    split
    · exact .inl rfl
    case h_2 x l he =>
      dsimp only
      refine carry fun _ => ?_
      rw [hpl.workerChannel_owner he]
      exact .recvWorker w
  case beginSubmit e ts => exact move hp.2.2 (.beginSubmit e ts)
  case beginRun e ts => exact move hp.2.2 (.beginRun e ts)
  case send x =>
    refine carry fun hx => ?_
    obtain ⟨⟨e, rfl⟩, ha, -⟩ := hp
    rw [ha.1]
    exact .send e x hx
  case failSubmit e => exact drop (.failSubmit e)
  case dropCaller e => exact drop (.dropCaller e)
  case dropTask u =>
    refine carry fun hu => ?_
    rw [hp.2.1]
    exact hu ▸ .dropTask i
  all_goals
    left
    first | trivial | exact Shared.modify_owner rfl

/-- A task comes to a worker through the dispatcher, which has seen its
predecessor finish. -/
theorem Op.handed (hl : Life prog m) {op : Op V P} (hp : op.Pre prog i m) (hpl : Places prog m)
    {w : WorkerId} (ho : ((op.exec m).cell t).owner = .workerChannel w ∨
      ((op.exec m).cell t).owner = .thread (.worker w)) : PredFinished prog (op.exec m) t := by
  refine (Op.grows hl hp).predFinished ?_
  rcases Op.owner_cases hp hpl t with he | hc
  · rw [he] at ho
    exact hpl.handed t w ho
  · generalize ho₁ : (m.cell t).owner = o₁ at hc
    generalize ((op.exec m).cell t).owner = o₂ at hc ho
    cases hc with
    | sendWorker w' x hx => exact hx ▸ hp.2.2.2.2
    | recvWorker w' => exact hpl.handed t w' (.inl ho₁)
    | _ => simp at ho

/-- A task that is being settled is not dropped. -/
theorem Op.settling {op : Op V P} (hp : op.Pre prog i m) (hpl : Places prog m)
    (hs : ((op.exec m).cell t).stage.settling = true) :
    ∃ j, ((op.exec m).cell t).owner = .thread j := by
  cases ho : ((op.exec m).cell t).owner with
  | thread j => exact ⟨j, rfl⟩
  | user => simp [Op.user hp hpl ho, Stage.settling] at hs
  | channel =>
      obtain ⟨x, -, hx⟩ := (Op.channel hp hpl).exists_mem ho
      obtain ⟨y, -, he⟩ := List.mem_map.mp hx
      simp [← (Prod.mk.inj he).2, Stage.settling] at hs
  | workerChannel w =>
      obtain ⟨x, -, hx⟩ := (Op.workerChannel hp hpl w).exists_mem ho
      obtain ⟨y, -, he⟩ := List.mem_map.mp hx
      simp [← (Prod.mk.inj he).2, Stage.settling] at hs
  | gone =>
      -- a task at a place where no thread settles it
      have hkeep : ∀ o, (m.cell t).owner = o → (∀ j, o ≠ .thread j) → False := by
        intro o ho' hne
        rw [Op.stage_eq hp (ho' ▸ hne i)] at hs
        obtain ⟨j, hj⟩ := hpl.settling t hs
        exact hne j (ho' ▸ hj)
      -- a task that its thread drops
      have hdrop : ∀ j, (m.cell t).owner = .thread j → m.NotSettling j →
          ((op.exec m).cell t).stage = (m.cell t).stage → False := by
        intro j hj hn he
        rw [he, hn t hj] at hs
        cases hs
      rcases Op.owner_cases hp hpl t with he | hc
      · exact (hkeep .gone (he ▸ ho) (by simp)).elim
      · rw [ho] at hc
        generalize ho₁ : (m.cell t).owner = o₁ at hc
        cases hc with
        | wakeQueue j home site => simp [Op.exec, Stage.settling] at hs
        | dropTask j => simp [Op.exec, hp.2.2, Stage.settling] at hs
        | dropDispatcher =>
            refine (hdrop _ ho₁ (hp.1 ▸ hp.2) ?_).elim
            exact (Shared.drop_stage _ _ _).trans (Shared.drop_stage _ _ _)
        | dropChannel => exact (hkeep .channel ho₁ (by simp)).elim
        | failSubmit e => exact (hdrop _ ho₁ (hp.1 ▸ hp.2) (Shared.drop_stage _ _ _)).elim
        | dropCaller e => exact (hdrop _ ho₁ (hp.1 ▸ hp.2) (Shared.drop_stage _ _ _)).elim

/-! ## Results -/

/-- The result of a task without a successor is only taken by the thread that
has the handle. -/
theorem Op.result_eq {op : Op V P} (hp : op.Pre prog i m) (hs : prog.succ t = none)
    (htake : ∀ e, (m.cell t).handle = some e → i ≠ .caller e) :
    ((op.exec m).cell t).result = (m.cell t).result := by
  have entitled : ∀ {k st}, ¬Entitled prog m i t st k := by
    intro k st h
    cases k with
    | continuation c => simp [Program.pred_succ.mp h.2] at hs
    | handle =>
        obtain ⟨-, e, hi, he⟩ := h
        exact htake e he hi
    | observer => exact h
  rcases (Op.cellStep op m t).result with hr | ⟨k, r, rfl⟩ | ⟨k, v, rfl⟩
  · exact hr
  · exact absurd hp.2.2.1 entitled
  · exact absurd hp.2.2.1 entitled

theorem Op.unheld (hl : Life prog m) {op : Op V P} (hp : op.Pre prog i m) (hpl : Places prog m)
    (hs : prog.succ t = none) (hh : ((op.exec m).cell t).handle = none) :
    ((op.exec m).cell t).result = none := by
  have hnone : (m.cell t).handle = none := by
    by_contra hsome
    obtain ⟨e, he⟩ := Option.ne_none_iff_exists'.mp hsome
    have := ((Op.grows hl hp).cell t).handle e he
    simp [hh] at this
  rw [Op.result_eq hp hs (by simp [hnone])]
  exact hpl.unheld t hs hnone

/-- Every allowed operation keeps the places. -/
theorem Places.exec (h : Places prog m) (hl : Life prog m) {op : Op V P}
    (hp : op.Pre prog i m) : Places prog (op.exec m) where
  user _ := Op.user hp h
  channel := Op.channel hp h
  workerChannel := Op.workerChannel hp h
  handed _ _ := Op.handed hl hp h
  settling _ := Op.settling hp h
  unheld _ := Op.unheld hl hp h

end MVSync
