import Mathlib.Order.RelClasses
import MVSync.Concurrency.System

/-!
# Runs that come to an end

Some threads of a system are left to themselves: from now on only the actions `T` are
taken.  A rank in a well-founded order that each of them lowers (`Ranking`) bounds all
their runs: none goes on for ever (`Ranking.not_forever`), and wherever they get stuck,
something is known of the state.

`Inevitable T P s` says that the actions `T` lead to a state with `P` from `s`, whichever
of them is taken next, as long as one of them is taken that can be.  The rule for it is
`Ranking.inevitable`: look at the states in which all of them are blocked.
-/

namespace Concurrency

namespace System

variable {ι M Op : Type} {S : System ι M Op} {T : S.Action → Prop}

/-! ## Schedules -/

/-- A schedule of the actions `T` in which each of them comes again and again. -/
structure Fair (T : S.Action → Prop) (σ : Nat → S.Action) : Prop where
  mem : ∀ n, T (σ n)
  again : ∀ a : S.Action, T a → ∀ n, ∃ k, σ (n + k) = a

theorem Fair.drop {σ : Nat → S.Action} (h : Fair T σ) (n : Nat) : Fair T fun k => σ (n + k) where
  mem k := h.mem (n + k)
  again a ha k := by
    obtain ⟨j, hj⟩ := h.again a ha (n + k)
    exact ⟨j, by rw [← hj, Nat.add_assoc]⟩

/-- The schedule that takes some actions in turn. -/
def cycle (as : List S.Action) (h : 0 < as.length) (n : Nat) : S.Action :=
  as.get ⟨n % as.length, Nat.mod_lt n h⟩

theorem Fair.cycle {as : List S.Action} (h : 0 < as.length) (hT : ∀ a, T a ↔ a ∈ as) :
    Fair T (cycle as h) where
  mem n := (hT _).mpr (List.get_mem _ _)
  again a ha n := by
    obtain ⟨i, rfl⟩ := List.mem_iff_get.mp ((hT a).mp ha)
    refine ⟨n * (as.length - 1) + i, ?_⟩
    have hn : n + (n * (as.length - 1) + i) = as.length * n + i :=
      calc n + (n * (as.length - 1) + i) = n * (as.length - 1 + 1) + i := by
            rw [Nat.mul_add_one]
            omega
        _ = as.length * n + i := by rw [Nat.sub_add_cancel h, Nat.mul_comm]
    have hmod : (n + (n * (as.length - 1) + i)) % as.length = i := by
      rw [hn, Nat.mul_add_mod, Nat.mod_eq_of_lt i.isLt]
    exact congrArg as.get (Fin.ext hmod)

/-- The first choices of a schedule. -/
def firsts (σ : Nat → S.Action) (n : Nat) : List S.Action := (List.range n).map σ

theorem firsts_succ (σ : Nat → S.Action) (n : Nat) :
    firsts σ (n + 1) = σ 0 :: firsts (fun k => σ (1 + k)) n := by
  simp [firsts, List.range_succ_eq_map, Nat.succ_eq_add_one, Nat.add_comm]

/-! ## What is inevitable -/

variable [DecidableEq ι] {P Q : S.State → Prop} {s s' : S.State}

/-- One of the actions `T` is taken. -/
def State.Moves (T : S.Action → Prop) (s s' : S.State) : Prop :=
  ∃ a : S.Action, T a ∧ s.step a = some s'

/-- All of the actions `T` are blocked. -/
def State.Halted (T : S.Action → Prop) (s : S.State) : Prop :=
  ∀ a : S.Action, T a → s.next a = none

theorem State.halted_or_moves (T : S.Action → Prop) (s : S.State) :
    s.Halted T ∨ ∃ s', s.Moves T s' := by
  by_cases h : s.Halted T
  · exact .inl h
  · simp only [State.Halted, not_forall] at h
    obtain ⟨a, ha, hn⟩ := h
    obtain ⟨r, hr⟩ := Option.ne_none_iff_exists'.mp hn
    exact .inr ⟨_, a, ha, State.step_of_next hr⟩

/-- The actions `T` lead to a state with `P`, in whatever order they are taken. -/
inductive Inevitable (T : S.Action → Prop) (P : S.State → Prop) : S.State → Prop where
  | now {s : S.State} (h : P s) : Inevitable T P s
  | later {s : S.State} (hs : ∃ s', s.Moves T s') (h : ∀ s', s.Moves T s' → Inevitable T P s') :
      Inevitable T P s

theorem Inevitable.mono (h : Inevitable T P s) (hPQ : ∀ s, P s → Q s) : Inevitable T Q s := by
  induction h with
  | now hp => exact .now (hPQ _ hp)
  | later hs _ ih => exact .later hs ih

/-- In a fair schedule some action that can be taken is taken before long. -/
theorem Fair.exists_moves {σ : Nat → S.Action} (h : Fair T σ) (hs : ∃ s', s.Moves T s') :
    ∃ n s', s.Moves T s' ∧ ∀ m, s.after (firsts σ (n + m)) = s'.after (firsts (σ <| n + ·) m) := by
  obtain ⟨s₁, a, ha, hs₁⟩ := hs
  obtain ⟨k, hk⟩ := h.again a ha 0
  -- the first turn that is not skipped comes no later than the one of `a`
  induction k generalizing σ with
  | zero =>
      refine ⟨1, s₁, ⟨a, ha, hs₁⟩, fun m => ?_⟩
      have h₀ : σ 0 = a := hk
      rw [Nat.add_comm, firsts_succ, State.after_cons, h₀, hs₁]
      rfl
  | succ k ih =>
      cases hs₀ : s.step (σ 0) with
      | some s₀ =>
          refine ⟨1, s₀, ⟨σ 0, h.mem 0, hs₀⟩, fun m => ?_⟩
          rw [Nat.add_comm, firsts_succ, State.after_cons, hs₀]
          rfl
      | none =>
          obtain ⟨n, s', hm, hn⟩ := ih (h.drop 1) (by rw [← hk]; congr 1; omega)
          refine ⟨n + 1, s', hm, fun m => ?_⟩
          rw [Nat.add_right_comm, firsts_succ, State.after_cons, hs₀]
          have hshift : (fun k => σ (n + 1 + k)) = fun k => σ (1 + (n + k)) := by
            funext k
            congr 1
            omega
          rw [hshift]
          exact hn m

/-- What is inevitable happens in every fair schedule. -/
theorem Inevitable.of_fair {σ : Nat → S.Action} (h : Inevitable T P s) (hσ : Fair T σ) :
    ∃ n, P (s.after (firsts σ n)) := by
  induction h generalizing σ with
  | now hp => exact ⟨0, hp⟩
  | later hs _ ih =>
      obtain ⟨n, s', hm, hn⟩ := hσ.exists_moves hs
      obtain ⟨m, hm⟩ := ih s' hm (hσ.drop n)
      exact ⟨n + m, by rwa [hn m]⟩

/-! ## Ranks -/

/-- A rank that every one of the actions `T` lowers, from the states with `I`, which they
do not leave. -/
structure Ranking (S : System ι M Op) (T : S.Action → Prop) (I : S.State → Prop) (α : Type)
    [Preorder α] where
  rank : S.State → α
  /-- The actions `T` stay in `I`. -/
  kept : ∀ {s s' : S.State}, I s → s.Moves T s' → I s'
  /-- A step lowers the rank. -/
  lt : ∀ {s s' : S.State}, I s → s.Moves T s' → rank s' < rank s

namespace Ranking

variable {I : S.State → Prop} {α : Type} [Preorder α] [WellFoundedLT α] (R : Ranking S T I α)

include R

/-- Induction over the runs of the actions `T`. -/
theorem induction {C : S.State → Prop}
    (step : ∀ s, I s → (∀ s', s.Moves T s' → C s') → C s) (hs : I s) : C s := by
  suffices h : ∀ (r : α) (s : S.State), R.rank s = r → I s → C s from h _ s rfl hs
  intro r
  induction r using WellFoundedLT.induction with
  | ind r ih =>
      rintro s rfl hs
      exact step s hs fun s' hs' => ih _ (R.lt hs hs') s' rfl (R.kept hs hs')

/-- The actions `T` are not taken for ever. -/
theorem not_forever {f : Nat → S.State} (h₀ : I (f 0)) : ¬∀ n, (f n).Moves T (f (n + 1)) := by
  refine R.induction (C := fun s => ∀ f : Nat → S.State, f 0 = s →
    ¬∀ n, (f n).Moves T (f (n + 1))) ?_ h₀ f rfl
  rintro s - ih f rfl hf
  exact ih (f 1) (hf 0) (fun n => f (n + 1)) rfl fun n => hf (n + 1)

/-- What holds wherever the actions `T` are stuck is inevitable. -/
theorem inevitable (hP : ∀ s, I s → s.Halted T → P s) (hs : I s) : Inevitable T P s := by
  refine R.induction (C := Inevitable T P) ?_ hs
  intro s hs ih
  rcases s.halted_or_moves T with hh | hm
  · exact .now (hP s hs hh)
  · exact .later hm ih

end Ranking

end System

end Concurrency
