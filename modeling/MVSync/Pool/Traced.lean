import Mathlib.Data.Finset.Card
import MVSync.Pool.Custody
import MVSync.Pool.Quiescence

/-!
# No task gets lost on the way in

A caller inside a submit call holds a reference to the queue.  So the queue is not dropped
while a task is being sent, and the dispatcher, which returns only after the queue was
dropped, is still there to receive it (`Pool.Senders`).

Hence without a `cancel` a task that left the user's hands is in the hands of a submit
call, or it was sent and is kept from then on.
-/

namespace MVSync

open Concurrency Pool

variable {V P : Type} {cfg : Specs} {prog : Program V P} {m : Shared V P} {op : Op V P}
  {t : TaskId}

/-! ## Submit calls -/

/-- The caller is inside a submit call. -/
def CallerPc.sends : CallerPc V P → Bool
  | .sending _ _ => true
  | _ => false

/-- The operations that begin or end a submit call. -/
def Op.submitting : Op V P → Bool
  | .beginSubmit _ _ | .endSubmit | .failSubmit _ => true
  | _ => false

theorem Op.submits_eq (h : op.submitting = false) : (op.exec m).submits = m.submits := by
  cases op <;> simp only [Op.submitting, Bool.true_eq_false] at h <;> simp only [Op.exec]
  case waitSignal t k => cases k <;> rfl
  case takeResult t k r => cases k <;> rfl
  case takeBuffer t k v => cases k <;> rfl
  case recv => split <;> rfl
  case recvWorker => split <;> rfl
  all_goals rfl

theorem Op.queueAlive_eq (h : op ≠ .dropQueue) : (op.exec m).queueAlive = m.queueAlive := by
  cases op <;> simp only [Op.exec]
  case dropQueue => exact absurd rfl h
  case waitSignal t k => cases k <;> rfl
  case takeResult t k r => cases k <;> rfl
  case takeBuffer t k v => cases k <;> rfl
  case recv => split <;> rfl
  case recvWorker => split <;> rfl
  all_goals rfl

theorem Op.submitting_of_ofCaller (h : op.ofCaller = false) : op.submitting = false := by
  cases op <;> first | rfl | cases h

/-- A caller begins a submit call while the queue is there, and ends one. -/
theorem callerNext_submitting {e : CallerId} {c : CallerInput} {p p' : CallerPc V P}
    (h : callerNext cfg prog e c p m = some (p', op)) :
    op.submitting = false ∧ p'.sends = p.sends ∨
      p.sends = false ∧ p'.sends = true ∧ m.queueAlive = true ∧
        (op.exec m).submits = m.submits + 1 ∨
      p.sends = true ∧ p'.sends = false ∧ (op.exec m).submits = m.submits - 1 := by
  have future : op.ofFuture = true → op.submitting = false := by
    intro ho
    exact Op.submitting_of_ofCaller (Op.ofCaller_of_ofFuture ho)
  cases callerNext_step h with
  | submit _ hs => exact .inr (.inl ⟨rfl, rfl, hs.1, rfl⟩)
  | endSubmit | failSubmit => exact .inr (.inr ⟨rfl, rfl, rfl⟩)
  | more hp | pending hp | err hp | ready hp => exact .inl ⟨future (pollNext_ofFuture hp), rfl⟩
  | settle hs | settled hs => exact .inl ⟨future (settleNext_ofFuture hs), rfl⟩
  | @wake _ k | @polled _ k => cases k <;> exact .inl ⟨rfl, rfl⟩
  | _ => exact .inl ⟨rfl, rfl⟩

/-- A caller drops the queue when no submit call uses it. -/
theorem callerNext_dropQueue {e : CallerId} {c : CallerInput} {p p' : CallerPc V P}
    (h : callerNext cfg prog e c p m = some (p', .dropQueue)) : m.submits = 0 := by
  cases callerNext_step h with
  | dropQueue hq => exact hq.2
  | more hp | pending hp | err hp | ready hp => cases pollNext_ofFuture hp
  | settle hs | settled hs => cases settleNext_ofFuture hs

/-- The dispatcher returns when the queue was dropped. -/
theorem dispatcherNext_alive {p p' : DispatcherPc P}
    (h : dispatcherNext cfg p m = some (p', op)) :
    (op.exec m).dispatcherAlive = m.dispatcherAlive ∨ m.queueAlive = false ∨ p' = .panicked := by
  cases dispatcherNext_step h with
  | exit _ hq => exact .inr (.inl hq)
  | panic => exact .inr (.inr rfl)
  | settle hs | settled hs =>
      refine .inl (Op.dispatcherAlive_eq ?_ ?_) <;> rintro rfl <;> cases settleNext_ofFuture hs
  | _ => exact .inl (Op.dispatcherAlive_eq nofun nofun)

namespace Pool

variable {s s' : (pool cfg prog).State} {a : (pool cfg prog).Action}

/-- As long as the queue is there, so is the dispatcher, unless it panicked. -/
theorem Reachable.alive_of_queue (h : Reachable s) :
    s.mem.dispatcherAlive = true ∨ s.mem.queueAlive = false ∨
      Pool.dispatcher s = .panicked := by
  refine h.thread_invariant (i := .dispatcher) (I := fun (d : DispatcherPc P) m =>
    m.dispatcherAlive = true ∨ m.queueAlive = false ∨ d = .panicked) (.inl rfl) ?_ ?_
  · intro s c q o hr hn hi
    have hdrop : o ≠ .dropQueue := by
      rintro rfl
      cases dispatcherNext_ofCaller hn
    have hq : (o.exec s.mem).queueAlive = s.mem.queueAlive := Op.queueAlive_eq hdrop
    rcases hi with hi | hi | hi
    · rcases dispatcherNext_alive hn with ha | ha | ha
      · exact .inl (ha.trans hi)
      · exact .inr (.inl (hq.trans ha))
      · exact .inr (.inr ha)
    · exact .inr (.inl (hq.trans hi))
    · rw [hi] at hn
      cases hn
  · intro s s' a d hr ha hs hi
    obtain ⟨o, ho, hm⟩ := mem_of_step hs
    have hpre := Reachable.performs hr ho
    rw [hm]
    rcases hi with hi | hi | hi
    · refine .inl ((Op.dispatcherAlive_eq ?_ ?_).trans hi)
      · rintro rfl
        exact ha hpre
      · rintro rfl
        exact ha hpre.1
    · by_cases hd : o = .dropQueue
      · exact .inr (.inl (hd ▸ rfl))
      · exact .inr (.inl ((Op.queueAlive_eq hd).trans hi))
    · exact .inr (.inr hi)

/-- The callers inside a submit call are counted, and the queue is there for them. -/
structure Senders (s : (pool cfg prog).State) : Prop where
  count : ∃ F : Finset CallerId, (∀ e, e ∈ F ↔ (caller s e).sends = true) ∧
    F.card = s.mem.submits
  queue : s.mem.queueAlive = false → s.mem.submits = 0

theorem Senders.init : Senders (poolInit cfg prog) :=
  ⟨⟨∅, fun e => by simp [caller, poolInit, CallerPc.sends], rfl⟩, nofun⟩

/-- A submit call finds the queue. -/
theorem Senders.queueAlive (h : Senders s) {e : CallerId} (he : (caller s e).sends = true) :
    s.mem.queueAlive = true := by
  obtain ⟨F, hF, hcard⟩ := h.count
  by_contra hq
  rw [h.queue (Bool.eq_false_iff.mpr hq), Finset.card_eq_zero] at hcard
  rw [← hF, hcard] at he
  exact absurd he (Finset.notMem_empty e)

/-- What no thread of the user does leaves the submit calls alone. -/
theorem Senders.of_not_ofCaller (h : Senders s) {o : Op V P} (ho : o.ofCaller = false)
    (hm : s'.mem = o.exec s.mem) (hc : ∀ e, caller s' e = caller s e) : Senders s' := by
  obtain ⟨⟨F, hF, hcard⟩, hq⟩ := h
  have hsub := Op.submits_eq (m := s.mem) (Op.submitting_of_ofCaller ho)
  have halive : (o.exec s.mem).queueAlive = s.mem.queueAlive :=
    Op.queueAlive_eq (by rintro rfl; cases ho)
  rw [← hm] at hsub halive
  exact ⟨⟨F, fun e => by rw [hF, hc], hcard.trans hsub.symm⟩,
    fun h' => hsub.trans (hq (halive.symm.trans h'))⟩

theorem Senders.step (h : Senders s) (hs : s.step a = some s') : Senders s' := by
  rcases step_cases hs with ⟨q, o, rfl, hn, rfl⟩ | ⟨v, pends, q, o, rfl, hn, rfl⟩ |
    ⟨e, c, q, o, rfl, hn, rfl⟩
  · exact h.of_not_ofCaller (dispatcherNext_ofCaller hn) rfl fun e => caller_move_dispatcher ..
  · exact h.of_not_ofCaller (workerNext_ofCaller hn) rfl fun e => caller_move_worker ..
  · obtain ⟨⟨F, hF, hcard⟩, hq⟩ := h
    have hmem : (s.move (.caller e) q o).mem = o.exec s.mem := rfl
    have hother : ∀ e', e' ≠ e → caller (s.move (.caller e) q o) e' = caller s e' :=
      fun e' he => caller_move_of_ne s o he q
    have hself : caller (s.move (.caller e) q o) e = q := caller_move s o e q
    rcases callerNext_submitting hn with ⟨ho, hsame⟩ | ⟨hp, hp', halive, hsub⟩ | ⟨hp, hp', hsub⟩
    · have hsub := Op.submits_eq (m := s.mem) ho
      refine ⟨⟨F, fun e' => ?_, hcard.trans hsub.symm⟩, fun h' => ?_⟩
      · by_cases he : e' = e
        · subst he
          rw [hF, hself, hsame]
        · rw [hF, hother e' he]
      · by_cases hd : o = .dropQueue
        · subst hd
          exact hsub.trans (callerNext_dropQueue hn)
        · rw [hmem, Op.queueAlive_eq hd] at h'
          exact hsub.trans (hq h')
    · -- `e` begins a submit call
      have hnew : e ∉ F := by simp [hF, hp]
      refine ⟨⟨insert e F, fun e' => ?_, ?_⟩, fun h' => ?_⟩
      · by_cases he : e' = e
        · subst he
          simp [hself, hp']
        · rw [Finset.mem_insert, hother e' he, ← hF]
          simp [he]
      · rw [Finset.card_insert_of_notMem hnew, hcard]
        exact hsub.symm
      · have hd : o ≠ .dropQueue := by
          rintro rfl
          have hno : s.mem.submits = s.mem.submits + 1 := hsub
          omega
        rw [hmem, Op.queueAlive_eq hd, halive] at h'
        cases h'
    · -- `e` ends it
      have hold : e ∈ F := (hF e).mpr hp
      have hpos : 0 < F.card := Finset.card_pos.mpr ⟨e, hold⟩
      refine ⟨⟨F.erase e, fun e' => ?_, ?_⟩, fun h' => ?_⟩
      · by_cases he : e' = e
        · subst he
          simp [hself, hp']
        · rw [Finset.mem_erase, hother e' he, ← hF]
          simp [he]
      · rw [Finset.card_erase_of_mem hold, hcard]
        exact hsub.symm
      · by_cases hd : o = .dropQueue
        · subst hd
          have hzero := callerNext_dropQueue hn
          omega
        · rw [hmem, Op.queueAlive_eq hd] at h'
          have hzero := hq h'
          omega

theorem Reachable.senders (h : Reachable s) : Senders s :=
  h.invariant .init fun _ _ hi hs _ => hi.step hs

/-! ## Every task can be traced -/

/-- The task is with the user, in the hands of a submit call, or it was sent. -/
def Traced (s : (pool cfg prog).State) (t : TaskId) : Prop :=
  (s.mem.cell t).owner = .user ∨ (∃ e, (s.mem.cell t).owner = .thread (.caller e)) ∨ Sent s t

/-- A caller drops none of its tasks while the dispatcher is there. -/
theorem Reachable.not_drops (hc : cfg.threadCount ≠ 0) (h : Reachable s)
    (hd : Pool.dispatcher s ≠ .panicked) {e : CallerId}
    (ho : (s.mem.cell t).owner = .thread (.caller e)) {o : Op V P} (hp : Performs s a o)
    (ha : a.tid = .caller e) : o.drops = false := by
  obtain ⟨sent, xs, hsend⟩ := h.sending_of_owner hc ho
  have hq : s.mem.queueAlive = true := h.senders.queueAlive (e := e) (by rw [hsend]; rfl)
  have hal : s.mem.dispatcherAlive = true := by
    rcases h.alive_of_queue with hal | hno | hpan
    · exact hal
    · simp [hq] at hno
    · exact absurd hpan hd
  refine Bool.eq_false_iff.mpr fun hdrop => ?_
  obtain ⟨q, hn⟩ := hp
  obtain ⟨i, c⟩ := a
  obtain rfl : i = .caller e := ha
  rcases (callerNext_drops (h.pass_eq_none hc e) hn).1 hdrop with hno | ⟨r, hu⟩
  · simp [hal] at hno
  · rw [hsend] at hu
    cases hu

theorem Traced.step (ht : Traced s t) (hc : cfg.threadCount ≠ 0) (h : Reachable s)
    (hs : s.step a = some s') (hd : Pool.dispatcher s ≠ .panicked)
    (hd' : Pool.dispatcher s' ≠ .panicked) : Traced s' t := by
  obtain ⟨o, ho, hm⟩ := mem_of_step hs
  have hp := h.performs ho
  rcases ht with hu | ⟨e, he⟩ | ht
  · rcases Op.owner_cases hp h.inv.places t with hsame | hcar
    · exact .inl (by rw [hm, hsame, hu])
    · rw [hu, ← hm] at hcar
      generalize ho₂ : (s'.mem.cell t).owner = o₂ at hcar
      cases hcar with
      | beginSubmit e | beginRun e => exact .inr (.inl ⟨e, ho₂⟩)
  · rcases Op.owner_cases hp h.inv.places t with hsame | hcar
    · exact .inr (.inl ⟨e, by rw [hm, hsame, he]⟩)
    · rw [he, ← hm] at hcar
      generalize ho₂ : (s'.mem.cell t).owner = o₂ at hcar
      cases hcar with
      | send e x hx => exact .inr (.inr (hx ▸ .of_send ho hs))
      | wakeQueue i home site =>
          refine .inr (.inr ⟨⟨.settled, ho₂⟩, fun _ => ⟨site, ?_⟩⟩)
          simp [hm, Op.exec]
      | dropTask i =>
          obtain ⟨-, hat, -⟩ := hp
          rw [he] at hat
          cases h.not_drops hc hd he ho (Owner.thread.inj hat).symm
      | failSubmit e => cases h.not_drops hc hd he ho hp.1
      | dropCaller e => cases h.not_drops hc hd he ho hp.1
  · exact .inr (.inr (ht.step h hs hd'))

/-- Without `cancel`, every task can be traced. -/
theorem traced (hc : cfg.threadCount ≠ 0)
    (h : System.ReachVia (fun _ a _ => cancels a = false) (poolInit cfg prog) s) (t : TaskId) :
    Traced s t := by
  refine h.invariant (I := fun s => Traced s t) (.inl rfl) ?_
  intro s s' a hv hi hs hok
  exact hi.step hc hv.reach hs (dispatcher_ne_panicked hv)
    (dispatcher_ne_panicked (.step a hv hs hok))

/-- A submit call fails where the dispatcher is gone. -/
theorem callerNext_failSubmit {e e' : CallerId} {c : CallerInput} {p p' : CallerPc V P}
    (h : callerNext cfg prog e c p m = some (p', .failSubmit e')) :
    p.sends = true ∧ m.dispatcherAlive = false := by
  cases callerNext_step h with
  | failSubmit hd => exact ⟨rfl, hd⟩
  | more hp | pending hp | err hp | ready hp => cases pollNext_ofFuture hp
  | settle hs | settled hs => cases settleNext_ofFuture hs

/-- Without `cancel`, a task is with the user, in the hands of a submit call that goes on, or
it was sent and is in one place of the pool.  No submit call fails. -/
theorem submits_succeed (hc : 0 < cfg.threadCount)
    (h : System.ReachVia (fun _ a _ => cancels a = false) (poolInit cfg prog) s) :
    (∀ t, (s.mem.cell t).owner = .user ∨
      (∃ e sent xs, (s.mem.cell t).owner = .thread (.caller e) ∧ caller s e = .sending sent xs) ∨
        Kept s t) ∧
      ∀ a e, ¬Performs s a (.failSubmit e) := by
  have hc' : cfg.threadCount ≠ 0 := fun he => absurd hc (by simp [he])
  have hr : Reachable s := h.reach
  refine ⟨fun t => ?_, fun a e ho => ?_⟩
  · rcases traced hc' h t with hu | ⟨e, he⟩ | hsent
    · exact .inl hu
    · obtain ⟨sent, xs, hp⟩ := hr.sending_of_owner hc' he
      exact .inr (.inl ⟨e, sent, xs, he, hp⟩)
    · exact .inr (.inr (hsent.kept hr))
  · obtain ⟨q, hn⟩ := ho
    obtain ⟨i, c⟩ := a
    cases i with
    | dispatcher => cases dispatcherNext_ofCaller hn
    | worker w => cases workerNext_ofCaller hn
    | caller e =>
        obtain ⟨hsends, hgone⟩ := callerNext_failSubmit hn
        have hq := hr.senders.queueAlive hsends
        rcases hr.alive_of_queue with hal | hno | hpan
        · simp [hgone] at hal
        · simp [hq] at hno
        · exact dispatcher_ne_panicked h hpan

end Pool

/-- In the middle of a submit call, the second function is in its hands, and the first one is
kept. -/
theorem Pool.submits_succeed_sendingRun :
    let s := sendingRun.after [call 0 .proceed]
    (∀ t, (s.mem.cell t).owner = .user ∨
      (∃ e sent xs, (s.mem.cell t).owner = .thread (.caller e) ∧ caller s e = .sending sent xs) ∨
        Kept s t) ∧
      ∀ a e, ¬Performs s a (.failSubmit e) :=
  submits_succeed (by decide)
    (.after _ (fun a ha _ _ => by simpa using List.mem_singleton.mp ha ▸ rfl) sendingRun_reachable)

end MVSync
