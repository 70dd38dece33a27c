import Mathlib.Data.List.Chain
import Mathlib.Data.List.Induction
import MVSync.Pool.Cancel
import MVSync.Pool.Settlement

/-!
# Chains

What a chain of tasks computes, and that the pool computes it: when no task is
cancelled, the wait on the last handle gets the composition of the bodies, or a
panic when one of them panics.

The payload of that panic is another matter.  Every hop from one task to the
next goes through `TaskState::take`, which boxes a new unit value.
-/

namespace MVSync

open Concurrency Pool

variable {V P : Type} {cfg : Specs} {prog : Program V P} {t u : TaskId} {ts : List TaskId}

/-! ## What a chain computes -/

/-- The bodies of a chain that begins with `t` and goes on with `ts`, each run on
what the one before it returned, up to the first panic. -/
def Program.chainValue (prog : Program V P) (t : TaskId) (ts : List TaskId) :
    Except (Payload P) V :=
  ts.foldl (fun r u => r.bind fun v => prog.body u (some v)) (prog.body t none)

/-- `t`, followed by the tasks `ts`, each built from the handle of the one before
it. -/
structure Program.IsChain (prog : Program V P) (t : TaskId) (ts : List TaskId) : Prop where
  root : prog.pred t = none
  links : List.IsChain (fun p u => prog.pred u = some p) (t :: ts)

@[simp] theorem Program.chainValue_nil : prog.chainValue t [] = prog.body t none := rfl

@[simp] theorem Program.chainValue_append :
    prog.chainValue t (ts ++ [u]) =
      (prog.chainValue t ts).bind fun v => prog.body u (some v) := by
  simp [chainValue]

namespace Program.IsChain

/-- A chain without its last tasks. -/
theorem of_append {us : List TaskId} (h : prog.IsChain t (ts ++ us)) : prog.IsChain t ts :=
  ⟨h.root, by
    have := h.links
    rw [← List.cons_append] at this
    exact this.left_of_append⟩

/-- The predecessor of a task in a chain. -/
theorem pred_eq {us : List TaskId} (h : prog.IsChain t (ts ++ u :: us)) :
    prog.pred u = some (ts.getLastD t) := by
  have hl := h.links
  rw [← List.cons_append, List.isChain_append] at hl
  refine hl.2.2 _ ?_ u (by simp)
  rw [List.getLast?_cons]
  simp [List.getLastD_eq_getLast?]

/-- A chain evaluates to its value. -/
theorem evals (h : prog.IsChain t ts) : prog.Evals (ts.getLastD t) (prog.chainValue t ts) := by
  induction ts using List.reverseRecOn with
  | nil => exact .root h.root
  | append_singleton ts u ih =>
      have hp := h.pred_eq
      have ih := ih h.of_append
      rw [chainValue_append, List.getLastD_concat]
      cases hv : prog.chainValue t ts with
      | ok v =>
          rw [hv] at ih
          exact .next hp ih
      | error q =>
          rw [hv] at ih
          exact .skip hp ih

end Program.IsChain

/-! ## Chain semantics -/

/-- What a handed-out result says about the outcome of the chain. -/
theorem Life.result_evals {m : Shared V P} (h : Life prog m) (hc : ¬SomeCancel m)
    {r : TaskResult V P} (hr : (m.cell t).result = some r) :
    (∃ v, r = .returned v ∧ prog.Evals t (.ok v)) ∨
      r = .panicked .unit ∧ ∃ q, prog.Evals t (.error q) := by
  obtain ⟨hok, -⟩ := (h.cell t).resultOk hr
  cases r with
  | returned v => exact .inl ⟨v, rfl, hok.1⟩
  | panicked q =>
      obtain ⟨rfl, hf⟩ := hok
      exact .inr ⟨rfl, (h.cell t).evals_of_panicked hf⟩
  | cancelled => exact absurd (h.cancelled t hok) hc

/-- The value that a body was invoked with is the value of the chain before
it. -/
theorem Life.invoked_chainValue {m : Shared V P} (h : Life prog m) {pre post : List TaskId}
    (hch : prog.IsChain t (pre ++ u :: post)) {v : Option V} (hv : v ∈ (m.cell u).invoked) :
    ∃ a, prog.chainValue t pre = .ok a ∧ v = some a := by
  obtain ⟨-, -, hin⟩ := h.invoked u v hv
  have hp := hch.pred_eq
  rcases hin with ⟨hnone, -⟩ | ⟨p, a, hp', rfl, ha⟩
  · simp [hp] at hnone
  · obtain rfl := Option.some.inj (hp.symm.trans hp')
    exact ⟨a, hch.of_append.evals.unique ((h.cell _).resultOk ha).1.1, rfl⟩

namespace Pool.Reachable

variable {s : (pool cfg prog).State}

/-- Chain semantics.  As long as nothing is cancelled, a wait on the handle of
the last task of a chain gets the composition of the bodies, or a panic when one
of them panics.  Each body is invoked at most once, with what its predecessor
returned, and none is invoked after one that panics. -/
theorem chain_semantics (h : Reachable s) (hc : ¬SomeCancel s.mem) (hch : prog.IsChain t ts) :
    (∀ r, (s.mem.cell (ts.getLastD t)).result = some r →
        match prog.chainValue t ts with
        | .ok v => r = .returned v
        | .error _ => ∃ q, r = .panicked q) ∧
      (∀ u ∈ t :: ts, (s.mem.cell u).invoked.length ≤ 1) ∧
      (∀ v ∈ (s.mem.cell t).invoked, v = none) ∧
      (∀ pre u post, ts = pre ++ u :: post → ∀ v ∈ (s.mem.cell u).invoked,
        ∃ a, prog.chainValue t pre = .ok a ∧ v = some a) ∧
      ∀ pre u post, ts = pre ++ u :: post → ∀ q, prog.chainValue t pre = .error q →
        (s.mem.cell u).invoked = [] := by
  have hl := h.inv.life
  refine ⟨fun r hr => ?_, fun u _ => ?_, fun v hv => ?_, ?_, ?_⟩
  · rcases hl.result_evals hc hr with ⟨v, rfl, he⟩ | ⟨rfl, q, he⟩
    · simp [hch.evals.unique he]
    · simp [hch.evals.unique he]
  · cases hu : (s.mem.cell u).invoked with
    | nil => simp
    | cons v vs =>
        obtain ⟨hone, -, -⟩ := hl.invoked u v (by simp [hu])
        simp [← hu, hone]
  · obtain ⟨-, -, hin⟩ := hl.invoked t v hv
    rcases hin with ⟨-, hv⟩ | ⟨p, a, hp, -, -⟩
    · exact hv
    · simp [hch.root] at hp
  · rintro pre u post rfl v hv
    exact hl.invoked_chainValue hch hv
  · rintro pre u post rfl q hq
    refine List.eq_nil_iff_forall_not_mem.mpr fun v hv => ?_
    obtain ⟨a, ha, -⟩ := hl.invoked_chainValue hch hv
    simp [hq] at ha

end Pool.Reachable

set_option maxRecDepth 2000

/-- The chain of two functions, after a wait on the last handle. -/
def successorWait : (pool Specs.one successorChain).State :=
  successorRun.after (call 0 (.handleWait 1) :: List.replicate 3 (call 0 .proceed))

theorem successorWait_reachable : Reachable successorWait := .after _ successorRun_reachable

theorem successorWait_noCancel : ¬SomeCancel successorWait.mem :=
  noCancel_after (by decide) (noCancel_after (by decide) noCancel_init)

theorem successorChain_isChain : successorChain.IsChain 0 [1] :=
  ⟨rfl, .cons_cons rfl (.singleton _)⟩

/-- The wait on the last handle of a run got the value of the chain. -/
theorem Pool.chain_semantics_successorWait :
    (successorWait.mem.cell 1).result = some (.returned 6) ∧
      ∀ r, (successorWait.mem.cell 1).result = some r → r = .returned 6 :=
  ⟨by decide,
    (successorWait_reachable.chain_semantics successorWait_noCancel successorChain_isChain).1⟩

/-! ## Panic payloads -/

namespace Pool.Reachable

variable {s : (pool cfg prog).State}

/-- A wait on the last handle of a chain that panics gets the payload exactly
when it is the unit value, which is what `TaskState::take` boxes. -/
theorem panic_payload (h : Reachable s) (hc : ¬SomeCancel s.mem) (hch : prog.IsChain t ts)
    {q : Payload P} (hq : prog.chainValue t ts = .error q) {r : TaskResult V P}
    (hr : (s.mem.cell (ts.getLastD t)).result = some r) : r = .panicked q ↔ q = .unit := by
  have he := hch.evals
  rw [hq] at he
  rcases h.inv.life.result_evals hc hr with ⟨v, -, hv⟩ | ⟨rfl, -⟩
  · cases he.unique hv
  · simp [eq_comm]

end Pool.Reachable

/-- A function that panics with payload `7`, and its continuation. -/
def panicChain : Program Nat Nat := .chain false 1 fun _ v => v.elim (.error (.user 7)) .ok

/-- The chain that panics, after a wait on the last handle. -/
def panicWait : (pool Specs.one panicChain).State :=
  (poolInit Specs.one panicChain).after (submits 0 [0, 1] ++ turns 40 ++
    call 0 (.handleWait 1) :: List.replicate 3 (call 0 .proceed))

theorem panicWait_reachable : Reachable panicWait := .after _ .init

theorem panicWait_noCancel : ¬SomeCancel panicWait.mem :=
  noCancel_after (by decide) noCancel_init

theorem panicChain_isChain : panicChain.IsChain 0 [1] := ⟨rfl, .cons_cons rfl (.singleton _)⟩

theorem panicWait_result : (panicWait.mem.cell 1).result = some (.panicked .unit) := by
  decide

/-- The payload of a run is lost. -/
theorem Pool.panic_payload_lost :
    ¬∀ s : (pool Specs.one panicChain).State, Reachable s → ¬SomeCancel s.mem →
      ∀ t ts q, panicChain.IsChain t ts → panicChain.chainValue t ts = .error q →
        ∀ r, (s.mem.cell (ts.getLastD t)).result = some r → r = .panicked q := by
  intro h
  have := h _ panicWait_reachable panicWait_noCancel 0 [1] (.user 7) panicChain_isChain rfl _
    panicWait_result
  simp at this

/-- What the wait of a run got is not the payload, since that is not the unit
value. -/
theorem Pool.panic_payload_panicWait :
    (TaskResult.panicked .unit : TaskResult Nat Nat) = .panicked (.user 7) ↔
      (Payload.user 7 : Payload Nat) = .unit :=
  panicWait_reachable.panic_payload panicWait_noCancel panicChain_isChain rfl panicWait_result

end MVSync
