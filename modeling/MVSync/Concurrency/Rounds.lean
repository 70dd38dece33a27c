import Mathlib.Data.List.Perm.Basic
import Mathlib.Logic.Relation

/-!
# Rounds over a list

A loop that goes through a list of items again and again.  A turn settles the item at
hand, and that changes the state, or it keeps the item for the next round, and then the
state is as before.  A turn can also stop the loop.

Nothing here fixes the items or the state.  The rule is `Sound.rounds`: if among the
items that are left there is always one that a turn would settle, then the list is empty
after as many rounds as it has items.  It holds for every order of the list, since the
invariant is about the items that are left and not about their order.  Items with
acyclic dependencies are such a list (`exists_first`).
-/

namespace Concurrency.Rounds

variable {α β σ ε : Type} (turn : σ → α → Except ε (Option σ))

/-- One round: the items that it keeps, and the state at its end. -/
def round : List α → σ → Except ε (List α × σ)
  | [], s => .ok ([], s)
  | x :: xs, s =>
      match turn s x with
      | .error q => .error q
      | .ok none => (round xs s).map fun r => (x :: r.1, r.2)
      | .ok (some s') => round xs s'

/-- A number of rounds, each over the items that the one before it kept. -/
def rounds : Nat → List α → σ → Except ε (List α × σ)
  | 0, xs, s => .ok (xs, s)
  | n + 1, xs, s => (round turn xs s).bind fun r => rounds n r.1 r.2

/-- An invariant about the items that are left, whatever their order is. -/
structure Sound (I : List α → σ → Prop) : Prop where
  perm : ∀ {xs ys s}, xs.Perm ys → I xs s → I ys s
  /-- A turn keeps the item or settles it. -/
  step : ∀ {x xs s}, I (x :: xs) s →
    turn s x = .ok none ∨ ∃ s', turn s x = .ok (some s') ∧ I xs s'
  /-- As long as there are items, one of them is not kept. -/
  progress : ∀ {xs s}, xs ≠ [] → I xs s → ∃ x ∈ xs, turn s x ≠ .ok none

variable {turn} {I : List α → σ → Prop} {x : α} {xs ys : List α} {s s' : σ} {n : Nat}

/-! ## One round -/

theorem round_kept (h : turn s x = .ok none) :
    round turn (x :: xs) s = (round turn xs s).map fun r => (x :: r.1, r.2) := by
  rw [round, h]

theorem round_settled (h : turn s x = .ok (some s')) :
    round turn (x :: xs) s = round turn xs s' := by
  rw [round, h]

/-- The first turn of a round, and the rest of it. -/
theorem round_cons (h : round turn (x :: xs) s = .ok (ys, s')) :
    (∃ ys', turn s x = .ok none ∧ ys = x :: ys' ∧ round turn xs s = .ok (ys', s')) ∨
      ∃ s₁, turn s x = .ok (some s₁) ∧ round turn xs s₁ = .ok (ys, s') := by
  cases ht : turn s x with
  | error q => simp [round, ht] at h
  | ok r =>
      cases r with
      | none =>
          rw [round_kept ht] at h
          cases hr : round turn xs s with
          | error q => simp [hr, Except.map] at h
          | ok r =>
              rw [hr] at h
              obtain ⟨rfl, rfl⟩ := Prod.mk.inj (Except.ok.inj h)
              exact .inl ⟨_, rfl, rfl, rfl⟩
      | some s₁ =>
          rw [round_settled ht] at h
          exact .inr ⟨s₁, rfl, h⟩

/-- A round that keeps all of its items has tried each of them in the same state. -/
theorem Sound.round (h : Sound turn I) (kept : List α) (hi : I (kept ++ xs) s) :
    ∃ ys s', round turn xs s = .ok (ys, s') ∧ ys.Sublist xs ∧ I (kept ++ ys) s' ∧
      (ys.length = xs.length → ∀ x ∈ xs, turn s x = .ok none) := by
  induction xs generalizing kept s with
  | nil => exact ⟨[], s, rfl, .slnil, hi, fun _ x hx => by cases hx⟩
  | cons x xs ih =>
      rcases h.step (h.perm List.perm_middle hi) with hkeep | ⟨s', hs', hi'⟩
      · obtain ⟨ys, s'', hr, hsub, hi'', hall⟩ := ih (kept ++ [x]) (by simpa using hi)
        refine ⟨x :: ys, s'', ?_, hsub.cons_cons x, by simpa using hi'', fun hlen y hy => ?_⟩
        · rw [round_kept hkeep, hr]
          rfl
        · rcases List.mem_cons.mp hy with rfl | hy
          · exact hkeep
          · exact hall (by simpa using hlen) y hy
      · obtain ⟨ys, s'', hr, hsub, hi'', -⟩ := ih kept hi'
        refine ⟨ys, s'', by rw [round_settled hs', hr], hsub.cons x, hi'', fun hlen => ?_⟩
        have hle := hsub.length_le
        rw [hlen, List.length_cons] at hle
        omega

/-- A round keeps items of its list, in their order. -/
theorem round_sublist (h : round turn xs s = .ok (ys, s')) : ys.Sublist xs := by
  induction xs generalizing s ys with
  | nil =>
      obtain ⟨rfl, -⟩ := Prod.mk.inj (Except.ok.inj h)
      exact .slnil
  | cons x xs ih =>
      rcases round_cons h with ⟨ys', -, rfl, hr⟩ | ⟨s₁, -, hr⟩
      · exact (ih hr).cons_cons x
      · exact (ih hr).cons x

/-! ## Rounds -/

theorem rounds_nil (n : Nat) (s : σ) : rounds turn n [] s = .ok ([], s) := by
  induction n with
  | zero => rfl
  | succ n ih => exact ih

/-- Every round settles an item, so there is one round at most for each of them. -/
theorem Sound.rounds (h : Sound turn I) (hi : I xs s) (hn : xs.length ≤ n) :
    ∃ s', rounds turn n xs s = .ok ([], s') ∧ I [] s' := by
  induction n generalizing xs s with
  | zero =>
      obtain rfl := List.eq_nil_of_length_eq_zero (Nat.le_zero.mp hn)
      exact ⟨s, rfl, hi⟩
  | succ n ih =>
      by_cases hxs : xs = []
      · subst hxs
        exact ⟨s, rounds_nil _ _, hi⟩
      · obtain ⟨ys, s', hr, hsub, hi', hall⟩ := h.round [] hi
        have hlt : ys.length < xs.length := by
          refine Nat.lt_of_le_of_ne hsub.length_le fun hlen => ?_
          obtain ⟨x, hx, hne⟩ := h.progress hxs hi
          exact hne (hall hlen x hx)
        obtain ⟨s'', hrs, hi''⟩ := ih hi' (Nat.le_of_lt_succ (Nat.lt_of_lt_of_le hlt hn))
        exact ⟨s'', by rw [Rounds.rounds, hr]; exact hrs, hi''⟩

/-! ## Acyclic dependencies -/

/-- Among the items of a list, one depends on none of the others if no item depends on
itself. -/
theorem exists_first {D : α → α → Prop} (h : ∀ x, ¬Relation.TransGen D x x) (hxs : xs ≠ []) :
    ∃ x ∈ xs, ∀ y ∈ xs, ¬Relation.TransGen D x y := by
  induction xs with
  | nil => exact absurd rfl hxs
  | cons x xs ih =>
      by_cases hnil : xs = []
      · subst hnil
        exact ⟨x, List.mem_cons_self, fun y hy => List.mem_singleton.mp hy ▸ h x⟩
      · obtain ⟨y, hy, hfirst⟩ := ih hnil
        by_cases hyx : Relation.TransGen D y x
        · refine ⟨x, List.mem_cons_self, fun z hz => ?_⟩
          rcases List.mem_cons.mp hz with rfl | hz
          · exact h z
          · exact fun hxz => hfirst z hz (hyx.trans hxz)
        · refine ⟨y, List.mem_cons_of_mem x hy, fun z hz => ?_⟩
          rcases List.mem_cons.mp hz with rfl | hz
          · exact hyx
          · exact hfirst z hz

/-! ## Items with names -/

theorem round_map (f : β → α) (bs : List β) (s : σ) :
    round turn (bs.map f) s =
      (round (fun s b => turn s (f b)) bs s).map fun r => (r.1.map f, r.2) := by
  induction bs generalizing s with
  | nil => rfl
  | cons b bs ih =>
      rw [List.map_cons]
      cases ht : turn s (f b) with
      | error q => simp [round, ht, Except.map]
      | ok r =>
          cases r with
          | none =>
              simp only [round, ht, ih]
              cases round (fun s b => turn s (f b)) bs s <;> rfl
          | some s' =>
              simp only [round, ht]
              exact ih s'

theorem rounds_map (f : β → α) (n : Nat) (bs : List β) (s : σ) :
    rounds turn n (bs.map f) s =
      (rounds (fun s b => turn s (f b)) n bs s).map fun r => (r.1.map f, r.2) := by
  induction n generalizing bs s with
  | zero => rfl
  | succ n ih =>
      rw [rounds, rounds, round_map]
      cases round (fun s b => turn s (f b)) bs s with
      | error q => rfl
      | ok r => exact ih r.1 r.2

end Concurrency.Rounds
