import Mathlib.Logic.Function.Basic

/-!
# Threads over a shared memory

A system is a family of threads that run over one shared memory.  Every thread
has its own positions, and a position carries the local variables of the
thread.  A step lets one thread perform one atomic operation: `next` reads the
memory, picks the operation and the next position, and `exec` is what the
operation does to the memory.  A thread whose `next` is `none` is blocked.

Nothing here fixes the number of threads, the memory or the operations.  The
two rules are the induction over runs (`Reach.invariant`) and the
rely/guarantee rule (`Outline.sound`).  The second one splits an invariant into
a part about the memory and one part per thread.  Each thread then only answers
for its own steps, and every part only has to be stable under what the other
threads may do.
-/

namespace Concurrency

/-- A family of threads `ι` over a shared memory `M`, with atomic operations
`Op`. -/
structure System (ι M Op : Type) where
  /-- The positions of a thread, with its local variables. -/
  Pc : ι → Type
  /-- What the environment chooses for a step of a thread. -/
  Input : ι → Type
  /-- What an operation does to the memory. -/
  exec : Op → M → M
  /-- The next position and operation of a thread, if it is not blocked. -/
  next : (i : ι) → Input i → Pc i → M → Option (Pc i × Op)

namespace System

variable {ι M Op : Type} (S : System ι M Op)

/-- A state: the memory and the position of every thread. -/
structure State where
  /-- The shared memory. -/
  mem : M
  /-- Where every thread is. -/
  pc : (i : ι) → S.Pc i

/-- One scheduling decision: a thread and what the environment chooses. -/
structure Action where
  /-- The thread that moves. -/
  tid : ι
  /-- The choice made for it. -/
  input : S.Input tid

variable {S}

/-- What thread `i` does next in a state. -/
def State.next (s : S.State) (a : S.Action) : Option (S.Pc a.tid × Op) :=
  S.next a.tid a.input (s.pc a.tid) s.mem

variable [DecidableEq ι]

/-- The state after thread `i` moved to `p` with operation `o`. -/
def State.move (s : S.State) (i : ι) (p : S.Pc i) (o : Op) : S.State :=
  ⟨S.exec o s.mem, Function.update s.pc i p⟩

@[simp] theorem State.move_mem (s : S.State) (i : ι) (p : S.Pc i) (o : Op) :
    (s.move i p o).mem = S.exec o s.mem := rfl

@[simp] theorem State.move_pc_self (s : S.State) (i : ι) (p : S.Pc i) (o : Op) :
    (s.move i p o).pc i = p := by
  simp [State.move]

theorem State.move_pc_of_ne (s : S.State) {i j : ι} (p : S.Pc i) (o : Op) (h : j ≠ i) :
    (s.move i p o).pc j = s.pc j := by
  simp [State.move, h]

/-- One step of the system. -/
def State.step (s : S.State) (a : S.Action) : Option S.State :=
  (s.next a).map fun r => s.move a.tid r.1 r.2

/-- A run: the state after a list of scheduling decisions, if none of them
picks a blocked thread. -/
def State.run (s : S.State) : List S.Action → Option S.State
  | [] => some s
  | a :: as => (s.step a).bind fun s' => State.run s' as

/-- What one step can do: a thread that is not blocked moves. -/
theorem State.step_cases {s s' : S.State} {a : S.Action} (h : s.step a = some s') :
    ∃ p o, S.next a.tid a.input (s.pc a.tid) s.mem = some (p, o) ∧ s' = s.move a.tid p o := by
  obtain ⟨⟨p, o⟩, hn, rfl⟩ := Option.map_eq_some_iff.mp h
  exact ⟨p, o, hn, rfl⟩

theorem State.step_of_next {s : S.State} {a : S.Action} {p : S.Pc a.tid} {o : Op}
    (h : s.next a = some (p, o)) : s.step a = some (s.move a.tid p o) := by
  rw [State.step, h]
  rfl

/-! ## Reachable states -/

/-- The states reached from `s₀` by steps that all satisfy `ok`. -/
inductive ReachVia (ok : S.State → S.Action → S.State → Prop) (s₀ : S.State) :
    S.State → Prop where
  | init : ReachVia ok s₀ s₀
  | step {s s' : S.State} (a : S.Action) :
      ReachVia ok s₀ s → s.step a = some s' → ok s a s' → ReachVia ok s₀ s'

/-- The states reached by any steps. -/
abbrev Reach (s₀ s : S.State) : Prop := ReachVia (fun _ _ _ => True) s₀ s

theorem ReachVia.reach {ok : S.State → S.Action → S.State → Prop} {s₀ s : S.State}
    (h : ReachVia ok s₀ s) : Reach s₀ s := by
  induction h with
  | init => exact .init
  | step a _ hs _ ih => exact .step a ih hs trivial

theorem ReachVia.mono {ok ok' : S.State → S.Action → S.State → Prop} {s₀ s : S.State}
    (h : ReachVia ok s₀ s) (hok : ∀ s a s', ok s a s' → ok' s a s') : ReachVia ok' s₀ s := by
  induction h with
  | init => exact .init
  | step a _ hs ha ih => exact .step a ih hs (hok _ _ _ ha)

theorem ReachVia.trans {ok : S.State → S.Action → S.State → Prop} {s₀ s s' : S.State}
    (h : ReachVia ok s₀ s) (h' : ReachVia ok s s') : ReachVia ok s₀ s' := by
  induction h' with
  | init => exact h
  | step a _ hs hok ih => exact .step a ih hs hok

/-- An invariant that holds initially and is kept by every allowed step from a
reached state holds of every state reached by allowed steps. -/
theorem ReachVia.invariant {ok : S.State → S.Action → S.State → Prop} {s₀ : S.State}
    {I : S.State → Prop} (init : I s₀)
    (step : ∀ {s s' : S.State} (a : S.Action), ReachVia ok s₀ s → I s → s.step a = some s' →
      ok s a s' → I s') {s : S.State} (h : ReachVia ok s₀ s) : I s := by
  induction h with
  | init => exact init
  | step a hr hs hok ih => exact step a hr ih hs hok

/-- An invariant about one thread: what holds of its position and the memory, is kept by
its own steps and is stable under the steps of the others. -/
theorem ReachVia.thread_invariant {ok : S.State → S.Action → S.State → Prop} {s₀ : S.State}
    {i : ι} {I : S.Pc i → M → Prop} (init : I (s₀.pc i) s₀.mem)
    (own : ∀ {s : S.State} (c : S.Input i) (p : S.Pc i) (o : Op), ReachVia ok s₀ s →
      S.next i c (s.pc i) s.mem = some (p, o) → I (s.pc i) s.mem → I p (S.exec o s.mem))
    (other : ∀ {s s' : S.State} (a : S.Action) (p : S.Pc i), ReachVia ok s₀ s → a.tid ≠ i →
      s.step a = some s' → I p s.mem → I p s'.mem) {s : S.State} (h : ReachVia ok s₀ s) :
    I (s.pc i) s.mem := by
  refine h.invariant (I := fun s => I (s.pc i) s.mem) init ?_
  intro s s' a hr hi hs _
  by_cases hj : a.tid = i
  · obtain ⟨p, o, hn, rfl⟩ := State.step_cases hs
    subst hj
    rw [State.move_pc_self]
    exact own a.input p o hr hn hi
  · have hI := other a (s.pc i) hr hj hs hi
    obtain ⟨p, o, -, rfl⟩ := State.step_cases hs
    rwa [State.move_pc_of_ne s p o (Ne.symm hj)]

/-- An invariant about the position of one thread. -/
theorem ReachVia.pc_invariant {ok : S.State → S.Action → S.State → Prop} {s₀ : S.State} {i : ι}
    {I : S.Pc i → Prop} (init : I (s₀.pc i))
    (step : ∀ {c : S.Input i} {p p' : S.Pc i} {o : Op} {m : M}, S.next i c p m = some (p', o) →
      I p → I p') {s : S.State} (h : ReachVia ok s₀ s) : I (s.pc i) :=
  h.thread_invariant (I := fun p _ => I p) init (fun _ _ _ _ hn hi => step hn hi)
    fun _ _ _ _ _ hi => hi

/-- A run reaches its last state. -/
theorem Reach.of_run {s₀ : S.State} :
    ∀ {as : List S.Action} {s s' : S.State}, Reach s₀ s → s.run as = some s' → Reach s₀ s'
  | [], s, s', h, hr => by
      simp only [State.run, Option.some.injEq] at hr
      exact hr ▸ h
  | a :: as, s, s', h, hr => by
      obtain ⟨s₁, h₁, h₂⟩ := Option.bind_eq_some_iff.mp hr
      exact Reach.of_run (.step a h h₁ trivial) h₂

/-- The state after a schedule, which skips the threads that are blocked. -/
def State.after (s : S.State) : List S.Action → S.State
  | [] => s
  | a :: as => State.after ((s.step a).getD s) as

theorem State.after_cons (s : S.State) (a : S.Action) (as : List S.Action) :
    s.after (a :: as) = ((s.step a).getD s).after as := rfl

theorem State.after_append (s : S.State) (as bs : List S.Action) :
    s.after (as ++ bs) = (s.after as).after bs := by
  induction as generalizing s with
  | nil => rfl
  | cons a as ih => exact ih ((s.step a).getD s)

/-- A property holds after every prefix of a schedule if it holds now and after every
prefix of the rest. -/
theorem State.forall_prefix_cons {I : S.State → Prop} (s : S.State) (a : S.Action)
    (as : List S.Action) :
    (∀ n, I (s.after ((a :: as).take n))) ↔
      I s ∧ ∀ n, I (((s.step a).getD s).after (as.take n)) := by
  constructor
  · exact fun h => ⟨h 0, fun n => h (n + 1)⟩
  · rintro ⟨h₀, h⟩ n
    cases n with
    | zero => exact h₀
    | succ n => exact h n

theorem ReachVia.after {ok : S.State → S.Action → S.State → Prop} {s₀ : S.State} :
    ∀ {s : S.State} (as : List S.Action), (∀ a ∈ as, ∀ s s', ok s a s') →
      ReachVia ok s₀ s → ReachVia ok s₀ (s.after as)
  | _, [], _, h => h
  | s, a :: as, hok, h => by
      refine ReachVia.after as (fun b hb => hok b (List.mem_cons_of_mem _ hb)) ?_
      cases hs : s.step a with
      | none => exact h
      | some s' => exact .step a h hs (hok a List.mem_cons_self s s')

theorem Reach.after {s₀ s : S.State} (as : List S.Action) (h : Reach s₀ s) :
    Reach s₀ (s.after as) := ReachVia.after as (fun _ _ _ _ => trivial) h

/-- Every step of a schedule passes the test `f`. -/
def State.along (f : S.State → S.Action → Bool) (s : S.State) : List S.Action → Bool
  | [] => true
  | a :: as => f s a && State.along f ((s.step a).getD s) as

theorem ReachVia.along {ok : S.State → S.Action → S.State → Prop} {f : S.State → S.Action → Bool}
    {s₀ : S.State} : ∀ {s : S.State}, ReachVia ok s₀ s →
      (∀ s a s', ReachVia ok s₀ s → f s a = true → ok s a s') →
        ∀ as : List S.Action, s.along f as = true → ReachVia ok s₀ (s.after as)
  | _, h, _, [], _ => h
  | s, h, hf, a :: as, hall => by
      obtain ⟨ha, has⟩ := Bool.and_eq_true_iff.mp hall
      refine ReachVia.along ?_ hf as has
      cases hs : s.step a with
      | none => exact h
      | some s' => exact .step a h hs (hf s a s' h ha)

/-- What is selected of a list that grows at its end. -/
theorem filterMap_snoc {α β : Type*} (f : α → Option β) (l : List α) (a : α) :
    (l ++ [a]).filterMap f = l.filterMap f ++ (f a).toList := by
  rw [List.filterMap_append]
  cases ha : f a <;> simp [ha]

/-- The operations of a schedule, in order. -/
def State.log (s : S.State) : List S.Action → List Op
  | [] => []
  | a :: as => ((s.next a).map Prod.snd).toList ++ State.log ((s.step a).getD s) as

theorem State.log_of_none {s : S.State} {a : S.Action} (h : s.next a = none)
    (as : List S.Action) : s.log (a :: as) = s.log as := by
  have hs : s.step a = none := by rw [State.step, h]; rfl
  rw [State.log, h, hs]
  rfl

theorem State.log_of_next {s : S.State} {a : S.Action} {p : S.Pc a.tid} {o : Op}
    (h : s.next a = some (p, o)) (as : List S.Action) :
    s.log (a :: as) = o :: (s.move a.tid p o).log as := by
  rw [State.log, h, State.step_of_next h]
  rfl

/-- An invariant of the state and the operations so far. -/
theorem State.log_invariant {s₀ : S.State} {I : List Op → S.State → Prop} (init : I [] s₀)
    (step : ∀ {l : List Op} {s : S.State} (a : S.Action) (p : S.Pc a.tid) (o : Op),
      Reach s₀ s → I l s → s.next a = some (p, o) → I (l ++ [o]) (s.move a.tid p o))
    (as : List S.Action) : I (s₀.log as) (s₀.after as) := by
  suffices h : ∀ {s : S.State} {l : List Op}, Reach s₀ s → I l s →
      I (l ++ s.log as) (s.after as) from h .init init
  induction as with
  | nil =>
      intro s l _ hi
      simpa [State.log, State.after] using hi
  | cons a as ih =>
      intro s l hr hi
      cases hn : s.next a with
      | none =>
          have hs : s.step a = none := by rw [State.step, hn]; rfl
          rw [State.log_of_none hn, State.after_cons, hs]
          exact ih hr hi
      | some r =>
          obtain ⟨p, o⟩ := r
          have hs := State.step_of_next hn
          have hrest := ih (.step a hr hs trivial) (step a p o hr hi hn)
          rw [List.append_assoc, List.singleton_append] at hrest
          rwa [State.log_of_next hn, State.after_cons, hs]

/-- A thread that is not scheduled stays where it is. -/
theorem State.after_pc_of_ne {i : ι} :
    ∀ {s : S.State} (as : List S.Action), (∀ a ∈ as, a.tid ≠ i) → (s.after as).pc i = s.pc i
  | _, [], _ => rfl
  | s, a :: as, h => by
      have hstep : ((s.step a).getD s).pc i = s.pc i := by
        cases hs : s.step a with
        | none => rfl
        | some s' =>
            obtain ⟨p, o, -, rfl⟩ := step_cases hs
            exact move_pc_of_ne s p o (h a List.mem_cons_self).symm
      have hrest := State.after_pc_of_ne (s := (s.step a).getD s) as
        fun b hb => h b (List.mem_cons_of_mem _ hb)
      exact hrest.trans hstep

/-! ## The rely/guarantee rule -/

/-- A proof outline.  `inv` is the invariant of the memory and `loc i p` what
thread `i` knows of the memory at position `p`.  A thread may perform `o` when
`pre i o` holds, and `rely j` is what thread `j` sees of a step of another
thread. -/
structure Outline (S : System ι M Op) where
  /-- The invariant of the memory. -/
  inv : M → Prop
  /-- What a thread knows at a position. -/
  loc : (i : ι) → S.Pc i → M → Prop
  /-- When a thread may perform an operation. -/
  pre : ι → Op → M → Prop
  /-- What a thread sees of a step of another thread. -/
  rely : ι → M → M → Prop
  /-- A step performs an operation that its thread may perform. -/
  allowed : ∀ {i : ι} {c : S.Input i} {p p' : S.Pc i} {o : Op} {m : M},
    S.next i c p m = some (p', o) → inv m → loc i p m → pre i o m
  /-- A step establishes what its thread knows at the next position. -/
  established : ∀ {i : ι} {c : S.Input i} {p p' : S.Pc i} {o : Op} {m : M},
    S.next i c p m = some (p', o) → inv m → loc i p m → loc i p' (S.exec o m)
  /-- An allowed operation keeps the invariant of the memory. -/
  kept : ∀ {i : ι} {o : Op} {m : M}, inv m → pre i o m → inv (S.exec o m)
  /-- An allowed operation is one that the other threads rely on. -/
  guarantee : ∀ {i j : ι} {o : Op} {m : M}, inv m → pre i o m → j ≠ i → rely j m (S.exec o m)
  /-- What a thread knows is stable under its rely. -/
  stable : ∀ {j : ι} {q : S.Pc j} {m m' : M}, loc j q m → rely j m m' → loc j q m'

/-- The invariant of an outline as a property of states. -/
structure Outline.Holds (O : Outline S) (s : S.State) : Prop where
  /-- The memory satisfies its invariant. -/
  inv : O.inv s.mem
  /-- Every thread is where the memory satisfies what it knows. -/
  loc : ∀ i, O.loc i (s.pc i) s.mem

theorem Outline.Holds.step {O : Outline S} {s s' : S.State} {a : S.Action}
    (h : O.Holds s) (hs : s.step a = some s') : O.Holds s' := by
  obtain ⟨p, o, hn, rfl⟩ := State.step_cases hs
  have hpre := O.allowed hn h.inv (h.loc a.tid)
  refine ⟨O.kept h.inv hpre, fun j => ?_⟩
  by_cases hj : j = a.tid
  · subst hj
    rw [State.move_pc_self]
    exact O.established hn h.inv (h.loc a.tid)
  · rw [State.move_pc_of_ne s p o hj]
    exact O.stable (h.loc j) (O.guarantee h.inv hpre hj)

/-- The rely/guarantee rule: an outline that holds initially holds of every
reachable state. -/
theorem Outline.sound (O : Outline S) {s₀ s : S.State} (h₀ : O.Holds s₀) (h : Reach s₀ s) :
    O.Holds s :=
  ReachVia.invariant h₀ (fun _ _ hi hs _ => hi.step hs) h

end System

end Concurrency
