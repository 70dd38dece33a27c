import Mathlib.Data.Set.Basic
import Mathlib.Logic.Function.Basic
import Mathlib.Logic.Relation

/-!
# Dataflow graphs

What a scheduler of dependent nodes is for.  A node may have a predecessor, whose value it
takes, and waits for events that other nodes signal when they have a value.  Nodes are
submitted at any time, and any node may fire that was submitted and whose dependencies have
values.

The order does not matter: a node has one value at most (`Reach.outcome_unique`), and where
no node can fire any more, exactly the supplied ones have fired (`Reach.final_iff`).
-/

namespace Concurrency

namespace Dataflow

open Function (update)

/-- Nodes `ι`, events `κ` and values `α`. -/
structure Graph (ι κ α : Type) where
  pred : ι → Option ι
  waits : ι → κ → Prop
  signals : ι → κ → Prop
  /-- The value of a node, from that of its predecessor. -/
  eval : ι → Option α → α

/-- The nodes that were submitted, and the values of those that have fired. -/
@[ext]
structure State (ι α : Type) where
  submitted : Set ι
  outcome : ι → Option α

variable {ι κ α : Type} {G : Graph ι κ α} {s s' : State ι α} {t u : ι} {a b : α}

/-- Nothing is submitted. -/
def State.init : State ι α := ⟨∅, fun _ => none⟩

/-! ## Steps -/

/-- The node may fire. -/
structure Graph.Enabled (G : Graph ι κ α) (s : State ι α) (t : ι) : Prop where
  submitted : t ∈ s.submitted
  waiting : s.outcome t = none
  pred : ∀ p, G.pred t = some p → s.outcome p ≠ none
  waits : ∀ k, G.waits t k → ∃ u, G.signals u k ∧ s.outcome u ≠ none

/-- The node gets its value. -/
def Graph.fire [DecidableEq ι] (G : Graph ι κ α) (s : State ι α) (t : ι) : State ι α :=
  { s with outcome := update s.outcome t (some (G.eval t ((G.pred t).bind s.outcome))) }

/-- Nodes are submitted, or one fires. -/
inductive Graph.Step [DecidableEq ι] (G : Graph ι κ α) : State ι α → State ι α → Prop where
  | submit (s : State ι α) (ts : Set ι) : Step G s { s with submitted := s.submitted ∪ ts }
  | fire {s : State ι α} {t : ι} (h : G.Enabled s t) : Step G s (G.fire s t)

/-- The states that a graph can get to. -/
abbrev Graph.Reach [DecidableEq ι] (G : Graph ι κ α) (s : State ι α) : Prop :=
  Relation.ReflTransGen G.Step .init s

/-! ## Values -/

/-- `a` is the value of `t`: what the nodes before it lead to. -/
inductive Graph.Value (G : Graph ι κ α) : ι → α → Prop where
  | root {t : ι} (h : G.pred t = none) : Value G t (G.eval t none)
  | next {t p : ι} {a : α} (h : G.pred t = some p) (hp : Value G p a) :
      Value G t (G.eval t (some a))

theorem Graph.Value.unique (h : G.Value t a) (h' : G.Value t b) : a = b := by
  induction h generalizing b with
  | root hp =>
      cases h' with
      | root => rfl
      | next hp' => simp [hp] at hp'
  | next hp _ ih =>
      cases h' with
      | root hp' => simp [hp] at hp'
      | next hp' hb =>
          obtain rfl := Option.some.inj (hp.symm.trans hp')
          rw [ih hb]

/-! ## Supplied nodes -/

/-- The node was submitted, and so was what it depends on, all the way down. -/
inductive Graph.Supplied (G : Graph ι κ α) (T : Set ι) : ι → Prop where
  | intro {t : ι} (signaller : κ → ι) (mem : t ∈ T)
      (pred : ∀ p, G.pred t = some p → Supplied G T p)
      (signals : ∀ k, G.waits t k → G.signals (signaller k) k)
      (waits : ∀ k, G.waits t k → Supplied G T (signaller k)) : Supplied G T t

theorem Graph.Supplied.mono {T T' : Set ι} (h : G.Supplied T t) (hT : T ⊆ T') :
    G.Supplied T' t := by
  induction h with
  | intro signaller hm _ hs _ hpred hwait => exact .intro signaller (hT hm) hpred hs hwait

/-- It is enough to have a node for each event. -/
theorem Graph.Supplied.of_exists {T : Set ι} (hm : t ∈ T)
    (hp : ∀ p, G.pred t = some p → G.Supplied T p)
    (hw : ∀ k, G.waits t k → ∃ u, G.signals u k ∧ G.Supplied T u) : G.Supplied T t := by
  classical
  have : Nonempty ι := ⟨t⟩
  choose! signaller hs hsup using hw
  exact .intro signaller hm hp hs hsup

/-- No node can fire. -/
def Graph.Final (G : Graph ι κ α) (s : State ι α) : Prop := ∀ t, ¬G.Enabled s t

/-- Where no node can fire, the supplied nodes have fired. -/
theorem Graph.Final.outcome_ne_none (hf : G.Final s) (h : G.Supplied s.submitted t) :
    s.outcome t ≠ none := by
  induction h with
  | @intro t signaller hm _ hs _ hpred hwait =>
      intro hn
      exact hf t ⟨hm, hn, hpred, fun k hk => ⟨signaller k, hs k hk, hwait k hk⟩⟩

/-! ## Runs -/

/-- What holds of the states of a run: a node that has a value was supplied, and it is its
value. -/
structure Graph.Sound (G : Graph ι κ α) (s : State ι α) : Prop where
  supplied : ∀ t, s.outcome t ≠ none → G.Supplied s.submitted t
  value : ∀ t a, s.outcome t = some a → G.Value t a

/-- What may fire is supplied. -/
theorem Graph.Sound.supplied_of_enabled (h : G.Sound s) (he : G.Enabled s t) :
    G.Supplied s.submitted t :=
  .of_exists he.submitted (fun p hp => h.supplied p (he.pred p hp)) fun k hk =>
    (he.waits k hk).imp fun u hu => ⟨hu.1, h.supplied u hu.2⟩

variable [DecidableEq ι]

theorem Graph.Sound.step (h : G.Sound s) (hs : G.Step s s') : G.Sound s' := by
  cases hs with
  | submit ts =>
      refine ⟨fun t ht => (h.supplied t ht).mono Set.subset_union_left, h.value⟩
  | @fire t he =>
      have hsupplied : G.Supplied s.submitted t := h.supplied_of_enabled he
      have hvalue : G.Value t (G.eval t ((G.pred t).bind s.outcome)) := by
        cases hp : G.pred t with
        | none => exact .root hp
        | some p =>
            obtain ⟨a, ha⟩ := Option.ne_none_iff_exists'.mp (he.pred p hp)
            rw [Option.bind_some, ha]
            exact .next hp (h.value p a ha)
      refine ⟨fun u hu => ?_, fun u a hu => ?_⟩
      · by_cases hut : u = t
        · exact hut ▸ hsupplied
        · exact h.supplied u (by simpa [fire, hut] using hu)
      · by_cases hut : u = t
        · subst hut
          simp only [fire, Function.update_self, Option.some.injEq] at hu
          exact hu ▸ hvalue
        · exact h.value u a (by simpa [fire, hut] using hu)

theorem Graph.Reach.sound (h : G.Reach s) : G.Sound s := by
  induction h with
  | refl => exact ⟨fun t ht => absurd rfl ht, fun t a ht => by cases ht⟩
  | tail _ hs ih => exact ih.step hs

/-- In all runs of a graph a node has the same value. -/
theorem Graph.Reach.outcome_unique (h : G.Reach s) (h' : G.Reach s') (ha : s.outcome t = some a)
    (hb : s'.outcome t = some b) : a = b :=
  (h.sound.value t a ha).unique (h'.sound.value t b hb)

/-- The end of a run depends on what was submitted only: exactly the supplied nodes have
fired, each with its value. -/
theorem Graph.Reach.final_iff (h : G.Reach s) (hf : G.Final s) :
    s.outcome t = some a ↔ G.Supplied s.submitted t ∧ G.Value t a := by
  constructor
  · intro ha
    exact ⟨h.sound.supplied t (by simp [ha]), h.sound.value t a ha⟩
  · rintro ⟨hsup, hval⟩
    obtain ⟨b, hb⟩ := Option.ne_none_iff_exists'.mp (hf.outcome_ne_none hsup)
    rw [hb, (h.sound.value t b hb).unique hval]

/-- Two runs in which the same nodes were submitted end alike. -/
theorem Graph.Reach.final_unique (h : G.Reach s) (h' : G.Reach s') (hf : G.Final s)
    (hf' : G.Final s') (hs : s.submitted = s'.submitted) : s = s' := by
  refine State.ext hs (funext fun t => Option.ext fun a => ?_)
  rw [h.final_iff hf, h'.final_iff hf', hs]

end Dataflow

end Concurrency
