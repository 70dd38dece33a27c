import Mathlib.Data.List.Nodup
import Mathlib.Data.List.Perm.Basic
import Mathlib.Logic.Function.Basic

/-!
# Exclusive ownership

Resources `T` that always have one owner, and that are in some stage `S` of
their life.  `Holds owner stage o l` says that `l` lists exactly the resources
of `o`, each once and with its stage.  A resource changes hands or stages by an
update of `owner` or `stage`, and the lemmas here say what that does to the
lists of the owners involved.  `Holds.congr` is the frame rule: an owner whose
resources are left alone keeps its list.
-/

namespace Concurrency

open Function (update)

variable {T O S : Type}

/-- `l` lists the resources of `o` with their stages, each once. -/
structure Holds (owner : T → O) (stage : T → S) (o : O) (l : List (T × S)) : Prop where
  /-- Nothing is listed twice. -/
  nodup : (l.map Prod.fst).Nodup
  /-- The list is what `o` owns. -/
  mem : ∀ t st, (t, st) ∈ l ↔ owner t = o ∧ stage t = st

namespace Holds

variable {owner owner' : T → O} {stage stage' : T → S} {o o' : O} {l l' : List (T × S)}
  {t : T} {a b : S}

theorem owner_eq (h : Holds owner stage o l) (ht : (t, a) ∈ l) : owner t = o :=
  ((h.mem t a).mp ht).1

theorem stage_eq (h : Holds owner stage o l) (ht : (t, a) ∈ l) : stage t = a :=
  ((h.mem t a).mp ht).2

theorem head_owner (h : Holds owner stage o ((t, a) :: l)) : owner t = o :=
  h.owner_eq List.mem_cons_self

theorem head_stage (h : Holds owner stage o ((t, a) :: l)) : stage t = a :=
  h.stage_eq List.mem_cons_self

theorem mem_of_owner (h : Holds owner stage o l) (ht : owner t = o) : (t, stage t) ∈ l :=
  (h.mem t _).mpr ⟨ht, rfl⟩

theorem head_not_mem (h : Holds owner stage o ((t, a) :: l)) : (t, b) ∉ l := by
  intro hb
  have hn := h.nodup
  rw [List.map_cons, List.nodup_cons] at hn
  exact hn.1 (List.mem_map.mpr ⟨(t, b), hb, rfl⟩)

/-- An owner has one list, up to order. -/
theorem perm (h : Holds owner stage o l) (hp : l.Perm l') : Holds owner stage o l' where
  nodup := (hp.map Prod.fst).nodup_iff.mp h.nodup
  mem t st := by rw [← hp.mem_iff, h.mem]

theorem nil_iff : Holds owner stage o [] ↔ ∀ t, owner t ≠ o := by
  constructor
  · intro h t ht
    exact absurd (h.mem_of_owner ht) List.not_mem_nil
  · intro h
    exact ⟨List.nodup_nil, fun t st => by simp [h t]⟩

/-- The frame rule. -/
theorem congr (h : Holds owner stage o l) (ho : ∀ t, owner' t = o ↔ owner t = o)
    (hs : ∀ t, owner t = o → stage' t = stage t) : Holds owner' stage' o l where
  nodup := h.nodup
  mem t st := by
    rw [h.mem, ho]
    constructor
    · rintro ⟨h₁, h₂⟩
      exact ⟨h₁, (hs t h₁).trans h₂⟩
    · rintro ⟨h₁, h₂⟩
      exact ⟨h₁, (hs t h₁).symm.trans h₂⟩

/-- An owner lists a resource once, or not at all. -/
theorem count [DecidableEq T] [DecidableEq O] (h : Holds owner stage o l) (t : T) :
    (l.map Prod.fst).count t = if owner t = o then 1 else 0 := by
  split
  case isTrue ht =>
    exact List.count_eq_one_of_mem h.nodup (List.mem_map.mpr ⟨_, h.mem_of_owner ht, rfl⟩)
  case isFalse ht =>
    refine List.count_eq_zero.mpr fun hm => ?_
    obtain ⟨⟨u, st⟩, hu, rfl⟩ := List.mem_map.mp hm
    exact ht (h.owner_eq hu)

variable [DecidableEq T]

/-- A resource of `o` moves on to stage `b`. -/
theorem setStage (h : Holds owner stage o ((t, a) :: l)) (b : S) :
    Holds owner (update stage t b) o ((t, b) :: l) where
  nodup := by simpa using h.nodup
  mem u st := by
    by_cases hu : u = t
    · subst hu
      have hn : (u, st) ∉ l := h.head_not_mem
      simp [hn, h.head_owner, eq_comm]
    · have := h.mem u st
      simpa [hu] using this

/-- A resource of `o` goes to another owner. -/
theorem release (h : Holds owner stage o ((t, a) :: l)) (ho : o' ≠ o) :
    Holds (update owner t o') stage o l where
  nodup := by
    have := h.nodup
    rw [List.map_cons, List.nodup_cons] at this
    exact this.2
  mem u st := by
    by_cases hu : u = t
    · subst hu
      have hn : (u, st) ∉ l := h.head_not_mem
      simp [hn, ho]
    · have := h.mem u st
      simpa [hu] using this

/-- A resource of another owner goes to `o`. -/
theorem acquire (h : Holds owner stage o l) (ht : owner t ≠ o) :
    Holds (update owner t o) stage o ((t, stage t) :: l) where
  nodup := by
    rw [List.map_cons, List.nodup_cons]
    refine ⟨fun hm => ?_, h.nodup⟩
    obtain ⟨⟨u, st⟩, hu, rfl⟩ := List.mem_map.mp hm
    exact ht (h.owner_eq hu)
  mem u st := by
    by_cases hu : u = t
    · subst hu
      have hn : (u, st) ∉ l := fun hm => ht (h.owner_eq hm)
      simp [hn, eq_comm]
    · have := h.mem u st
      simp [hu, this]

/-- A stage of a resource of another owner changes. -/
theorem setStage_of_ne (h : Holds owner stage o l) (ht : owner t ≠ o) (b : S) :
    Holds owner (update stage t b) o l :=
  h.congr (fun _ => Iff.rfl) fun u hu => by
    have : u ≠ t := fun e => ht (e ▸ hu)
    simp [this]

/-- A resource goes from one other owner to another. -/
theorem move_of_ne (h : Holds owner stage o l) (ht : owner t ≠ o) (ho : o' ≠ o) :
    Holds (update owner t o') stage o l :=
  h.congr (fun u => by
    by_cases hu : u = t
    · subst hu; simp [ho, ht]
    · simp [hu]) fun _ _ => rfl

end Holds

end Concurrency
