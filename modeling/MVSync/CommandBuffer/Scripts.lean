import MVSync.CommandBuffer.Commands
import MVSync.CommandBuffer.Completion
import MVSync.Pool.Calls

/-!
# What a command buffer means

A script is a program that records a command buffer in the way that the documentation shows:
it builds one chain of commands after the other, links chains, and creates fences.  Such a
script never extends an older chain (`Script.extendsAll`), so what it records are its chains
(`Script.recorded`).

Recorded, baked and submitted, a chain does what it means as a program, whatever the threads
of the pool do in between: the lines that it prints come in the order of the program, and
when it is settled, all of them were printed and its last handle shows the value
(`Pool.script_run`).  And it comes to that (`Pool.script_completes`).
-/

namespace MVSync

open Concurrency Pool

variable {V P T : Type} {cfg : Specs} {prog : Program V P} {i : Intent} {n k : Nat}
  {t u : TaskId} {ts : List TaskId} {v : Option V}

/-! ## Scripts -/

/-- A statement of a script. -/
inductive Statement (V P : Type) : Type 1 where
  /-- A chain of commands.  Its end is a call of `Command::response`, or it is dropped. -/
  | chain {T : Type} (c : BufferedCommand V P T) (response : Bool)
  | linkChains (dependency successor : Nat)
  | createFence (taskChain : Nat)

namespace Statement

/-- The number of commands that the statement records. -/
def size : Statement V P → Nat
  | .chain c _ => c.depth + 1
  | _ => 0

def calls (n : TaskId) : Statement V P → List Call
  | .chain c response =>
      c.calls n ++ [if response then .response (n + c.depth) else .drop (n + c.depth)]
  | .linkChains d s => [.linkChains d s]
  | .createFence k => [.createFence k]

def functions : Statement V P → List (Option V → Act P V)
  | .chain c _ => c.functions
  | _ => []

end Statement

namespace Script

variable {ss pre post : List (Statement V P)}

/-- The number of commands that a script records. -/
def size (ss : List (Statement V P)) : Nat := (ss.map Statement.size).sum

/-- The recording calls of a script, when `n` is the number of the next command. -/
def calls (n : TaskId) : List (Statement V P) → List Call
  | [] => []
  | s :: ss => s.calls n ++ calls (n + s.size) ss

/-- What the tasks of a script call, by the number of the command. -/
def functions (ss : List (Statement V P)) : List (Option V → Act P V) :=
  ss.flatMap Statement.functions

end Script

/-! ## The chains of a script -/

namespace Intent

theorem run_append (i : Intent) (cs ds : List Call) : i.run (cs ++ ds) = (i.run cs).run ds := by
  induction cs generalizing i with
  | nil => rfl
  | cons c cs ih => exact ih (i.step c)

theorem extendsAll_append {cs ds : List Call} :
    i.ExtendsAll (cs ++ ds) ↔ i.ExtendsAll cs ∧ (i.run cs).ExtendsAll ds := by
  induction cs generalizing i with
  | nil => exact (and_iff_right trivial).symm
  | cons c cs ih => exact (and_congr_right' ih).trans and_assoc.symm

/-- A chain whose commands were recorded one after the other. -/
theorem chain_eq_range' (roots : Nat) {d : Nat} {a b : List Nat} (ha : ∀ o ∈ a, o < k)
    (hb : ∀ o ∈ b, k < o) :
    chain ⟨roots, a ++ List.replicate d k ++ b⟩ k = List.range' a.length d := by
  induction b using List.reverseRecOn with
  | append_singleton b o ih =>
      have hne : o ≠ k := (hb o (by simp)).ne'
      rw [← List.append_assoc, chain_append ⟨roots, _⟩, if_neg hne, List.append_nil]
      exact ih fun o ho => hb o (List.mem_append_left _ ho)
  | nil =>
      rw [List.append_nil]
      induction d with
      | zero =>
          rw [List.replicate_zero, List.append_nil]
          exact chain_eq_nil ha
      | succ d ih =>
          rw [List.replicate_succ', ← List.append_assoc, chain_append ⟨roots, _⟩, if_pos rfl,
            List.range'_1_concat]
          simp [ih]

end Intent

/-- What a chain of commands chains. -/
theorem BufferedCommand.intent (c : BufferedCommand V P T) (hn : i.origin.length = n) :
    i.ExtendsAll (c.calls n) ∧
      i.run (c.calls n) = ⟨i.roots + 1, i.origin ++ List.replicate (c.depth + 1) i.roots⟩ := by
  induction c with
  | rootSync | root => exact ⟨⟨trivial, trivial⟩, rfl⟩
  | addSyncCommand c f ih | addCommand c f ih =>
      obtain ⟨hext, hrun⟩ := ih
      have hlast : (i.origin ++ List.replicate (c.depth + 1) i.roots)[n + c.depth]? =
          some i.roots := by
        rw [List.getElem?_append_right (by omega), ← hn, Nat.add_sub_cancel_left,
          List.getElem?_replicate, if_pos (Nat.lt_succ_self _)]
      rw [calls, depth, Intent.extendsAll_append, Intent.run_append, hrun]
      refine ⟨⟨hext, hlast, trivial⟩, ?_⟩
      simp only [Intent.run, Intent.step, hlast, Option.getD_some]
      rw [List.append_assoc, List.replicate_succ' (n := c.depth + 1)]

/-- `j` is what becomes of `i` when further chains are recorded. -/
structure Intent.Grows (i j : Intent) : Prop where
  roots : i.roots ≤ j.roots
  origin : ∃ rest, j.origin = i.origin ++ rest ∧ ∀ o ∈ rest, i.roots ≤ o ∧ o < j.roots

theorem Intent.Grows.refl (i : Intent) : i.Grows i := ⟨Nat.le_refl _, [], by simp, by simp⟩

theorem Intent.Grows.trans {i j l : Intent} (h : i.Grows j) (h' : j.Grows l) : i.Grows l := by
  obtain ⟨a, ha, hra⟩ := h.origin
  obtain ⟨b, hb, hrb⟩ := h'.origin
  refine ⟨h.roots.trans h'.roots, a ++ b, by rw [hb, ha, List.append_assoc], fun o ho => ?_⟩
  rcases List.mem_append.mp ho with ho | ho
  · exact ⟨(hra o ho).1, (hra o ho).2.trans_le h'.roots⟩
  · exact ⟨h.roots.trans (hrb o ho).1, (hrb o ho).2⟩

theorem Statement.intent (s : Statement V P) (hn : i.origin.length = n) :
    i.ExtendsAll (s.calls n) ∧ i.Grows (i.run (s.calls n)) ∧
      (i.run (s.calls n)).origin.length = n + s.size := by
  cases s with
  | chain c response =>
      obtain ⟨hext, hrun⟩ := c.intent hn
      have hend : ∀ j : Intent, j.ExtendsAll
          [if response then Call.response (n + c.depth) else .drop (n + c.depth)] ∧
            j.run [if response then Call.response (n + c.depth) else .drop (n + c.depth)] = j := by
        cases response <;> exact fun j => ⟨⟨trivial, trivial⟩, rfl⟩
      rw [calls, Intent.extendsAll_append, Intent.run_append, hrun, (hend _).2]
      refine ⟨⟨hext, (hend _).1⟩, ⟨Nat.le_succ _, _, rfl, fun o ho => ?_⟩, ?_⟩
      · obtain rfl := List.eq_of_mem_replicate ho
        exact ⟨Nat.le_refl _, Nat.lt_succ_self _⟩
      · rw [List.length_append, List.length_replicate, hn, size]
  | linkChains | createFence => exact ⟨⟨trivial, trivial⟩, .refl i, hn⟩

namespace Script

variable {ss pre post : List (Statement V P)}

@[simp] theorem size_cons (s : Statement V P) : size (s :: ss) = s.size + size ss := by
  simp [size]

theorem calls_append : calls n (pre ++ post) = calls n pre ++ calls (n + size pre) post := by
  induction pre generalizing n with
  | nil => rfl
  | cons s ss ih => simp [calls, ih, Nat.add_assoc]

theorem intent (ss : List (Statement V P)) (hn : i.origin.length = n) :
    i.ExtendsAll (calls n ss) ∧ i.Grows (i.run (calls n ss)) ∧
      (i.run (calls n ss)).origin.length = n + size ss := by
  induction ss generalizing i n with
  | nil => exact ⟨trivial, .refl i, hn⟩
  | cons s ss ih =>
      obtain ⟨hext, hgrows, hlen⟩ := s.intent hn
      obtain ⟨hext', hgrows', hlen'⟩ := ih hlen
      rw [calls, Intent.extendsAll_append, Intent.run_append, size_cons, ← Nat.add_assoc]
      exact ⟨⟨hext, hext'⟩, hgrows.trans hgrows', hlen'⟩

/-- A script never extends an older chain. -/
theorem extendsAll (ss : List (Statement V P)) : Intent.new.ExtendsAll (calls 0 ss) :=
  (intent ss rfl).1

/-- The chain of a statement is the chain of its root. -/
theorem exists_chain (pre post : List (Statement V P)) (c : BufferedCommand V P T)
    (response : Bool) :
    ∃ k < (Intent.new.run (calls 0 (pre ++ .chain c response :: post))).roots,
      (Intent.new.run (calls 0 (pre ++ .chain c response :: post))).chain k =
        List.range' (size pre) (c.depth + 1) := by
  obtain ⟨-, hpre, hlen⟩ := intent (i := .new) (n := 0) pre rfl
  rw [calls_append, calls, Intent.run_append, Intent.run_append]
  rw [Nat.zero_add] at hlen ⊢
  generalize Intent.new.run (calls 0 pre) = j at hpre hlen ⊢
  obtain ⟨-, -, hlen'⟩ := Statement.intent (.chain c response) hlen
  obtain ⟨-, hpost, -⟩ := intent post hlen'
  have hc : j.run (Statement.calls (size pre) (.chain c response)) =
      ⟨j.roots + 1, j.origin ++ List.replicate (c.depth + 1) j.roots⟩ := by
    rw [Statement.calls, Intent.run_append, (c.intent hlen).2]
    cases response <;> rfl
  rw [hc] at hpost ⊢
  generalize Intent.run _ (calls _ post) = l at hpost ⊢
  obtain ⟨a, ha, hra⟩ := hpre.origin
  obtain ⟨b, hb, hrb⟩ := hpost.origin
  refine ⟨j.roots, hpost.roots, ?_⟩
  have hold : ∀ o ∈ j.origin, o < j.roots :=
    fun o ho => (hra o (by simpa [ha, Intent.new] using ho)).2
  have hchain := Intent.chain_eq_range' l.roots (d := c.depth + 1) hold
    fun o ho => (hrb o ho).1
  rw [hlen, ← hb] at hchain
  exact hchain

/-- A chain of a script is recorded as it is. -/
theorem recorded {home : Bool} {r : Recorder} {c : BufferedCommand V P T} {response : Bool}
    (hrun : (Recorder.new home).run (calls 0 (pre ++ .chain c response :: post)) = some r) :
    ∃ l ∈ r.raw.tasks, l.ids = List.range' (size pre) (c.depth + 1) := by
  obtain ⟨k, hk, hchain⟩ := exists_chain pre post c response
  have hids := (recorded_chains home _ r hrun).mpr (extendsAll _) k hk
  rw [hchain] at hids
  obtain ⟨l, hl, hids⟩ := Option.map_eq_some_iff.mp hids
  exact ⟨l, List.mem_of_getElem? hl, hids⟩

end Script

/-! ## What a chain means -/

/-- The tasks of the program from number `n` on call the functions `fs`, and print what these
print. -/
def Realises (prog : Program V P) (lines : TaskId → Option V → List Line)
    (task : TaskId → TaskId) (n : TaskId) (fs : List (Option V → Act P V)) : Prop :=
  ∀ j f, fs[j]? = some f → ∀ v,
    prog.body (task (n + j)) v = (f v).outcome ∧ lines (task (n + j)) v = (f v).lines

/-- The lines that some calls print. -/
def printed (lines : TaskId → Option V → List Line) (cs : List (TaskId × Option V)) :
    List Line := cs.flatMap fun c => lines c.1 c.2

theorem printed_append {lines : TaskId → Option V → List Line} (cs ds : List (TaskId × Option V)) :
    printed lines (cs ++ ds) = printed lines cs ++ printed lines ds := List.flatMap_append

theorem printed_prefix {lines : TaskId → Option V → List Line} {cs ds : List (TaskId × Option V)}
    (h : cs <+: ds) : printed lines cs <+: printed lines ds := by
  obtain ⟨es, rfl⟩ := h
  rw [printed_append]
  exact List.prefix_append _ _

namespace BufferedCommand

variable {R : Type} {lines : TaskId → Option V → List Line} {task : TaskId → TaskId}

theorem length_functions (c : BufferedCommand V P T) : c.functions.length = c.depth + 1 := by
  induction c with
  | rootSync | root => rfl
  | addSyncCommand c f ih | addCommand c f ih =>
      rw [functions, List.length_append, ih, List.length_singleton, depth]

/-- A chained command gets back what its predecessor handed on. -/
theorem chained_erase (c : BufferedCommand V P T) (i : MVSynced V R) (f : T → Act P R) (t : T) :
    c.chained i f (some (c.synced.erase t)) = handOn i (f t) := by
  simp only [chained, Option.bind_some, c.synced.restore_erase]

/-- A chain with one more command means what the program with one more closure does. -/
theorem meaning_step {c : BufferedCommand V P T} {i : MVSynced V R} {f : T → Act P R}
    (h : Realises prog lines task n (c.functions ++ [c.chained i f]))
    (hvalue : prog.chainValue (task n) ((List.range' (n + 1) c.depth).map task) =
      c.run.outcome.map c.synced.erase)
    (hlines : printed lines (prog.trace (task n :: (List.range' (n + 1) c.depth).map task) none) =
      c.run.lines) :
    prog.chainValue (task n) ((List.range' (n + 1) (c.depth + 1)).map task) =
        (c.run >>= f).outcome.map i.erase ∧
      printed lines (prog.trace (task n :: (List.range' (n + 1) (c.depth + 1)).map task) none) =
        (c.run >>= f).lines := by
  have hlast : ∀ v, prog.body (task (n + (c.depth + 1))) v = (c.chained i f v).outcome ∧
      lines (task (n + (c.depth + 1))) v = (c.chained i f v).lines := by
    refine h (c.depth + 1) _ ?_
    rw [List.getElem?_append_right (by rw [length_functions]), length_functions, Nat.sub_self]
    rfl
  have hnum : n + 1 + c.depth = n + (c.depth + 1) := by omega
  rw [List.range'_1_concat, hnum, List.map_append, List.map_singleton, Program.chainValue_append,
    Program.trace_concat, printed_append, hvalue, hlines]
  cases hrun : c.run.outcome with
  | ok t =>
      obtain ⟨hbody, hprint⟩ := hlast (some (c.synced.erase t))
      rw [chained_erase] at hbody hprint
      rw [Act.bind_ok hrun]
      refine ⟨hbody, ?_⟩
      simp [Except.map, printed, hprint, handOn]
  | error q =>
      rw [Act.bind_error hrun]
      exact ⟨rfl, List.append_nil _⟩

/-- A chain of tasks that call the functions of a chain of commands means what the commands
mean. -/
theorem meaning (c : BufferedCommand V P T) (h : Realises prog lines task n c.functions) :
    prog.chainValue (task n) ((List.range' (n + 1) c.depth).map task) =
        c.run.outcome.map c.synced.erase ∧
      printed lines (prog.trace (task n :: (List.range' (n + 1) c.depth).map task) none) =
        c.run.lines := by
  induction c with
  | rootSync f | root f =>
      obtain ⟨hbody, hprint⟩ := h 0 _ rfl none
      refine ⟨hbody, ?_⟩
      simp only [depth, List.range'_zero, List.map_nil, Program.trace_singleton, printed,
        List.flatMap_cons, List.flatMap_nil, List.append_nil]
      exact hprint
  | addSyncCommand c f ih | addCommand c f ih =>
      have hfst : Realises prog lines task n c.functions := fun j g hg =>
        h j g (List.getElem?_append_left (List.getElem?_eq_some_iff.mp hg).1 ▸ hg)
      obtain ⟨hvalue, hlines⟩ := ih hfst
      exact meaning_step h hvalue hlines

end BufferedCommand

/-! ## Scripts in the pool -/

section

variable {r : Recorder} {baked : Baked} {first : SemId} {task : TaskId → TaskId}
  {sem : SemId → SemId} {fence : FenceId → FenceId} {lines : TaskId → Option V → List Line}
  {ss pre post : List (Statement V P)} {c : BufferedCommand V P T} {response : Bool}

namespace Script

/-- The numbers of the commands of a chain that comes behind the statements `pre`. -/
def ids (pre : List (Statement V P)) (c : BufferedCommand V P T) : List TaskId :=
  List.range' (size pre) (c.depth + 1)

theorem ids_eq : ids pre c = size pre :: List.range' (size pre + 1) c.depth := List.range'_succ

/-- The number of the last command of the chain. -/
theorem getLastD_ids : (List.range' (n + 1) k).getLastD n = n + k := by
  cases k with
  | zero => rfl
  | succ k =>
      rw [List.range'_1_concat, List.getLastD_concat]
      omega

theorem length_functions : (functions ss).length = size ss := by
  induction ss with
  | nil => rfl
  | cons s ss ih =>
      have hs : s.functions.length = s.size := by
        cases s with
        | chain c => exact c.length_functions
        | linkChains | createFence => rfl
      rw [size_cons, functions, List.flatMap_cons, List.length_append, hs]
      exact congrArg (s.size + ·) ih

/-- The tasks of a chain call the functions of the chain. -/
theorem realises
    (h : Realises prog lines task 0 (functions (pre ++ .chain c response :: post))) :
    Realises prog lines task (size pre) c.functions := by
  intro j f hf
  have hlt : j < c.functions.length := (List.getElem?_eq_some_iff.mp hf).1
  have hj : (functions (pre ++ .chain c response :: post))[size pre + j]? = some f := by
    rw [functions, List.flatMap_append, List.flatMap_cons]
    change (functions pre ++ (c.functions ++ _))[size pre + j]? = some f
    rw [List.getElem?_append_right (by rw [length_functions]; omega), length_functions,
      Nat.add_sub_cancel_left, List.getElem?_append_left hlt, hf]
  simpa using h _ f hj

end Script

/-- The script was recorded and baked, and its tasks are tasks of the program. -/
structure Script.Installed (prog : Program V P) (lines : TaskId → Option V → List Line)
    (task : TaskId → TaskId) (sem : SemId → SemId) (fence : FenceId → FenceId)
    (ss : List (Statement V P)) (r : Recorder) (baked : Baked) : Prop where
  recorded : ∃ home, (Recorder.new home).run (calls 0 ss) = some r
  finished : ∃ first, r.raw.finish first = .ok baked
  within : baked.Within prog task sem fence
  realises : Realises prog lines task 0 (functions ss)

/-- A chain of a script has printed what it prints as a program, and its last handle shows the
value of the program. -/
structure Script.Done (lines : TaskId → Option V → List Line) (task : TaskId → TaskId)
    (pre : List (Statement V P)) (c : BufferedCommand V P T) (s : (pool cfg prog).State) :
    Prop where
  lines : printed lines (s.mem.calls ((ids pre c).map task)) = c.run.lines
  shows : (s.mem.cell (task (size pre + c.depth))).Shows (c.run.outcome.map c.synced.erase)

namespace Script.Installed

variable {s : (pool cfg prog).State}

theorem placed (h : Installed prog lines task sem fence ss r baked) :
    ∃ first, Placed prog r first baked task sem fence := by
  obtain ⟨home, hrun⟩ := h.recorded
  obtain ⟨first, hb⟩ := h.finished
  exact ⟨first, .of_finish hrun hb h.within⟩

theorem linear (h : Installed prog lines task sem fence ss r baked) :
    ∀ l ∈ r.raw.tasks, l.Linear := by
  obtain ⟨home, hrun⟩ := h.recorded
  exact Recorder.linear hrun (extendsAll ss)

/-- A chain of the script is one of the chains of the buffer. -/
theorem exists_ids
    (h : Installed prog lines task sem fence (pre ++ .chain c response :: post) r baked) :
    ∃ l ∈ r.raw.tasks, l.ids = ids pre c := by
  obtain ⟨home, hrun⟩ := h.recorded
  exact Script.recorded hrun

/-- The tasks of a chain of the script are a chain of the program. -/
theorem isChain
    (h : Installed prog lines task sem fence (pre ++ .chain c response :: post) r baked) :
    prog.IsChain (task (size pre)) ((List.range' (size pre + 1) c.depth).map task) := by
  obtain ⟨first, hp⟩ := h.placed
  obtain ⟨l, hl, hids⟩ := h.exists_ids
  obtain ⟨k, hk⟩ := List.getElem?_of_mem hl
  exact hp.isChain (h.linear l hl) hk (hids.trans ids_eq)

/-- What a chain has printed is a beginning of what it prints as a program. -/
theorem printed_prefix
    (h : Installed prog lines task sem fence (pre ++ .chain c response :: post) r baked)
    (hr : Reachable s) :
    printed lines (s.mem.calls ((ids pre c).map task)) <+: c.run.lines := by
  rw [← (c.meaning (Script.realises h.realises)).2, ids_eq, List.map_cons]
  exact MVSync.printed_prefix (h.isChain.calls_prefix hr)

/-- Settled, a chain has come to its end. -/
theorem done
    (h : Installed prog lines task sem fence (pre ++ .chain c response :: post) r baked)
    (hr : Reachable s) (hc : ¬SomeCancel s.mem) (hs : ∀ t ∈ ids pre c, Settled s (task t)) :
    Done lines task pre c s := by
  obtain ⟨hvalue, hlines⟩ := c.meaning (Script.realises h.realises)
  constructor
  · have hall : ∀ u ∈ (ids pre c).map task, Settled s u := List.forall_mem_map.mpr hs
    rw [ids_eq, List.map_cons] at hall ⊢
    rw [h.isChain.calls_eq hr hc hall, hlines]
  · obtain ⟨first, hp⟩ := h.placed
    obtain ⟨l, hl, hids⟩ := h.exists_ids
    have hshows := hp.shows (h.linear l hl) hl (hids.trans ids_eq) fun u hu =>
      hr.completed hc (hs u (by rwa [hids] at hu))
    rw [List.getLastD_map, getLastD_ids, hvalue] at hshows
    exact hshows

end Script.Installed

/-- A chain of a script in any run of the pool: what it has printed, in the order of the run,
is a beginning of what it prints as a program.  Once its tasks are settled and nothing was
cancelled, that is all of it, and the last handle shows the value of the program. -/
theorem Pool.script_run
    (h : Script.Installed prog lines task sem fence (pre ++ .chain c response :: post) r baked)
    (as : List (pool cfg prog).Action) :
    printed lines (calls ((Script.ids pre c).map task) ((poolInit cfg prog).log as)) <+:
        c.run.lines ∧
      (¬SomeCancel ((poolInit cfg prog).after as).mem →
        (∀ t ∈ Script.ids pre c, Settled ((poolInit cfg prog).after as) (task t)) →
          printed lines (calls ((Script.ids pre c).map task) ((poolInit cfg prog).log as)) =
              c.run.lines ∧
            (((poolInit cfg prog).after as).mem.cell (task (Script.size pre + c.depth))).Shows
              (c.run.outcome.map c.synced.erase)) := by
  have hr : Reachable ((poolInit cfg prog).after as) := .after as .init
  have hf : prog.Follows ((Script.ids pre c).map task) := by
    rw [Script.ids_eq, List.map_cons]
    exact h.isChain.links
  rw [calls_log hf]
  refine ⟨h.printed_prefix hr, fun hc hs => ?_⟩
  have hdone := h.done hr hc hs
  exact ⟨hdone.lines, hdone.shows⟩

/-- Submitted, a script with acyclic links comes to its end, whichever thread moves next:
every chain has printed what it prints as a program, and its last handle shows the value. -/
theorem Pool.script_completes (h : Script.Installed prog lines task sem fence ss r baked)
    (hac : ∀ k, ¬Relation.TransGen (fun e s => (e, s) ∈ r.raw.chainLinks) k k)
    (hroom : Roomy cfg prog) {s₀ : (pool cfg prog).State} (hrun : PromptRun s₀)
    (hcall : ∀ e sent xs, caller s₀ e ≠ .sending sent xs)
    (hsub : ∀ x ∈ baked.tasks, (s₀.mem.cell (task x.id)).owner ≠ .user) :
    System.Inevitable Prompt (fun s => ∀ (T : Type) (pre post : List (Statement V P))
      (c : BufferedCommand V P T) (response : Bool), ss = pre ++ .chain c response :: post →
        Script.Done lines task pre c s) s₀ := by
  obtain ⟨first, hp⟩ := h.placed
  refine hrun.inevitable hcall fun s hi hh => ?_
  have hdone : ∀ x ∈ baked.tasks, Completed s (task x.id) :=
    fun x hx => hi.completed hroom hh (hp.grounded h.linear hac hsub x hx)
  rintro T pre post c response rfl
  obtain ⟨l, hl, hids⟩ := h.exists_ids
  exact h.done hi.run.reach hi.run.no_cancel fun t ht =>
    (hp.completed_ids hdone hl (by rwa [hids])).settled

/-- Commands that print what they get can be put anywhere into a chain.  Wherever the two
chains run, with whatever around them, they give the same value, and the lines of the one are
among those of the other, in the same order. -/
theorem Pool.inspection_transparent {cfg' : Specs} {prog' : Program V P} {r' : Recorder}
    {baked' : Baked} {task' : TaskId → TaskId} {sem' : SemId → SemId}
    {fence' : FenceId → FenceId} {lines' : TaskId → Option V → List Line}
    {pre' post' : List (Statement V P)} {d : BufferedCommand V P T} {response' : Bool}
    (h : Script.Installed prog lines task sem fence (pre ++ .chain c response :: post) r baked)
    (h' : Script.Installed prog' lines' task' sem' fence' (pre' ++ .chain d response' :: post') r'
      baked')
    (hi : c.Inspects d) {s : (pool cfg prog).State} {s' : (pool cfg' prog').State}
    (hr : Reachable s) (hr' : Reachable s') (hc : ¬SomeCancel s.mem) (hc' : ¬SomeCancel s'.mem)
    (hs : ∀ t ∈ Script.ids pre c, Settled s (task t))
    (hs' : ∀ t ∈ Script.ids pre' d, Settled s' (task' t)) :
    (∃ o : Except (Payload P) T,
      (s.mem.cell (task (Script.size pre + c.depth))).Shows (o.map c.synced.erase) ∧
        (s'.mem.cell (task' (Script.size pre' + d.depth))).Shows (o.map d.synced.erase)) ∧
      (printed lines (s.mem.calls ((Script.ids pre c).map task))).Sublist
        (printed lines' (s'.mem.calls ((Script.ids pre' d).map task'))) := by
  obtain ⟨hlines, hshows⟩ := h.done hr hc hs
  obtain ⟨hlines', hshows'⟩ := h'.done hr' hc' hs'
  obtain ⟨ho, hl⟩ := hi.run
  rw [ho] at hshows'
  rw [hlines, hlines']
  exact ⟨⟨_, hshows, hshows'⟩, hl⟩

end

/-! ## Scripts of one chain -/

section

variable (n : Nat) (ss : List (Statement (Option Nat) Nat))

instance : MVSynced (Option Nat) Nat := ⟨some, id, fun _ => rfl⟩

instance : Display Nat := ⟨toString⟩

/-- The tasks of a script that is one chain `0, …, n`. -/
def chainProgram : Program (Option Nat) Nat :=
  { Program.chain false n fun t v =>
      match (Script.functions ss)[t]? with
      | some f => (f v).outcome
      | none => .ok none with
    wait := fun t => if 0 < t ∧ t ≤ n then [t - 1] else []
    semaphores := fun t => if t < n then [t] else [] }

/-- What they print. -/
def chainLines (t : TaskId) (v : Option (Option Nat)) : List Line :=
  match (Script.functions ss)[t]? with
  | some f => (f v).lines
  | none => []

theorem chain_realises :
    Realises (chainProgram n ss) (chainLines ss) id 0 (Script.functions ss) := by
  intro j f hf v
  simp [chainProgram, chainLines, Program.chain, hf]

variable {n ss} in
theorem mem_chainProgram {g : SemId} (hg : g ∈ (chainProgram n ss).semaphores t) :
    t < n ∧ g = t := by
  have h : (chainProgram n ss).semaphores t = if t < n then [t] else [] := rfl
  rw [h] at hg
  split at hg
  · next ht => exact ⟨ht, List.mem_singleton.mp hg⟩
  · cases hg

def chainRecorder : Recorder := ((Recorder.new true).run (Script.calls 0 ss)).getD (.new true)

def chainBaked : Baked :=
  ((chainRecorder ss).raw.finish 0).toOption.getD ⟨[], fun _ => none, 0⟩

end

set_option maxRecDepth 4000

/-- `buffer.add_sync_command(|| Some(5)).unwrap()`. -/
def unwrapping : BufferedCommand (Option Nat) Nat Nat :=
  Unwrap.unwrap (.rootSync (T := Option Nat) (pure (some 5)))

/-- `buffer.add_sync_command(|| Some(5)).unwrap().print()`. -/
def printing : BufferedCommand (Option Nat) Nat Nat := Print.print unwrapping

/-- The two scripts, each with one chain. -/
def unwrappingScript : List (Statement (Option Nat) Nat) := [.chain unwrapping false]

def printingScript : List (Statement (Option Nat) Nat) := [.chain printing false]

theorem unwrapping_installed : Script.Installed (chainProgram 1 unwrappingScript)
    (chainLines unwrappingScript) id id id unwrappingScript (chainRecorder unwrappingScript)
      (chainBaked unwrappingScript) where
  recorded := ⟨true, rfl⟩
  finished := ⟨0, rfl⟩
  realises := chain_realises 1 unwrappingScript
  within := {
    taskInjective := fun _ _ => id
    semInjective := fun _ _ => id
    inner := by decide
    wait := by decide
    semaphores := by decide
    fence := fun f t hf => by cases hf
    own := fun _ _ g _ t hg => by
      obtain rfl : t = 0 := Nat.lt_one_iff.mp (mem_chainProgram hg).1
      exact ⟨_, List.mem_cons_self, rfl⟩ }

theorem printing_installed : Script.Installed (chainProgram 2 printingScript)
    (chainLines printingScript) id id id printingScript (chainRecorder printingScript)
      (chainBaked printingScript) where
  recorded := ⟨true, rfl⟩
  finished := ⟨0, rfl⟩
  realises := chain_realises 2 printingScript
  within := {
    taskInjective := fun _ _ => id
    semInjective := fun _ _ => id
    inner := by decide
    wait := by decide
    semaphores := by decide
    fence := fun f t hf => by cases hf
    own := fun _ _ g _ t hg => by
      match t, (mem_chainProgram hg).1 with
      | 0, _ => exact ⟨_, List.mem_cons_self, rfl⟩
      | 1, _ => exact ⟨_, List.mem_cons_of_mem _ List.mem_cons_self, rfl⟩ }

def unwrappingRun : (pool Specs.one (chainProgram 1 unwrappingScript)).State :=
  (poolInit _ _).after (submits 0 [0, 1] ++ turns 44)

def printingSchedule : List (pool Specs.one (chainProgram 2 printingScript)).Action :=
  submits 0 [0, 1, 2] ++ turns 66

def printingRun : (pool Specs.one (chainProgram 2 printingScript)).State :=
  (poolInit _ _).after printingSchedule

theorem unwrappingRun_reachable : Reachable unwrappingRun := .after _ .init

theorem printingRun_reachable : Reachable printingRun := .after _ .init

theorem unwrappingRun_settled : ∀ t ∈ Script.ids [] unwrapping, Settled unwrappingRun t := by
  have hw : ∀ t ∈ [0, 1], (unwrappingRun.mem.cell t).wakes ≠ [] := by decide
  exact fun t ht => unwrappingRun_reachable.settled (hw t ht)

theorem printingRun_settled : ∀ t ∈ Script.ids [] printing, Settled printingRun t := by
  have hw : ∀ t ∈ [0, 1, 2], (printingRun.mem.cell t).wakes ≠ [] := by decide
  exact fun t ht => printingRun_reachable.settled (hw t ht)

theorem unwrappingRun_noCancel : ¬SomeCancel unwrappingRun.mem :=
  noCancel_after (by decide) noCancel_init

theorem printingRun_noCancel : ¬SomeCancel printingRun.mem :=
  noCancel_after (by decide) noCancel_init

/-- The line is printed, and the last handle shows the value. -/
theorem Pool.script_run_printingSchedule :
    printed (chainLines printingScript) (calls [0, 1, 2] ((poolInit _ _).log printingSchedule)) =
        [.out "5"] ∧
      (printingRun.mem.cell 2).Shows (.ok (some 5)) :=
  (script_run (c := printing) printing_installed printingSchedule).2 printingRun_noCancel
    printingRun_settled

/-- No body of the script panics: what is unwrapped is a value. -/
theorem printing_no_panic (t : TaskId) : ¬(chainProgram 2 printingScript).Panics t := by
  have h₀ : (chainProgram 2 printingScript).Evals 0 (.ok (some 5)) := .root rfl
  have h₁ : (chainProgram 2 printingScript).Evals 1 (.ok (some 5)) := .next (p := 0) rfl h₀
  have hnext : ∀ p v, (chainProgram 2 printingScript).pred (p + 1) = some p →
      (chainProgram 2 printingScript).Calls (p + 1) v →
        (chainProgram 2 printingScript).Evals p (.ok (some 5)) → v = some (some 5) := by
    intro p v hp hv he
    cases v with
    | none => cases hp.symm.trans hv
    | some a =>
        obtain ⟨p', hp', he'⟩ := hv
        obtain rfl := Option.some.inj (hp.symm.trans hp')
        rw [Except.ok.inj (he'.unique he)]
  rintro ⟨v, q, hv, hb⟩
  match t with
  | 0 => cases hb
  | 1 =>
      obtain rfl := hnext 0 v rfl hv h₀
      cases hb
  | 2 =>
      obtain rfl := hnext 1 v rfl hv h₁
      cases hb
  | t + 3 => cases hb

theorem printing_roomy : Roomy Specs.one (chainProgram 2 printingScript) where
  threads := by decide
  home _ := rfl
  placeable := ⟨fun _ _ => nofun, fun _ => List.cons_ne_nil 0 []⟩
  slots := ⟨∅, fun t ht => absurd ht (printing_no_panic t), by decide⟩

def printingSubmitted : (pool Specs.one (chainProgram 2 printingScript)).State :=
  (poolInit _ _).after (submits 0 [0, 1, 2])

theorem printing_acyclic (k : Nat) :
    ¬Relation.TransGen (fun e s => (e, s) ∈ (chainRecorder printingScript).raw.chainLinks) k k := by
  intro h
  obtain ⟨_, hl, -⟩ := Relation.TransGen.head'_iff.mp h
  cases hl

/-- The script comes to that, whoever moves next. -/
theorem Pool.script_completes_printingSubmitted :
    System.Inevitable Prompt (fun s => ∀ (T : Type)
      (pre post : List (Statement (Option Nat) Nat)) (c : BufferedCommand (Option Nat) Nat T)
      (response : Bool), printingScript = pre ++ .chain c response :: post →
        Script.Done (chainLines printingScript) id pre c s) printingSubmitted :=
  script_completes printing_installed printing_acyclic printing_roomy (.of_prompts (by decide))
    (fun e sent xs => by
      rw [show caller printingSubmitted e = .idle from caller_after (by decide) (by decide) e]
      simp) (by decide)

/-- Both runs end with the value `5`. -/
theorem Pool.inspection_transparent_printingRun :
    ∃ o : Except (Payload Nat) Nat, (unwrappingRun.mem.cell 1).Shows (o.map some) ∧
      (printingRun.mem.cell 2).Shows (o.map some) :=
  (inspection_transparent (c := unwrapping) (d := printing) unwrapping_installed
    printing_installed (.print (.refl _)) unwrappingRun_reachable printingRun_reachable
      unwrappingRun_noCancel printingRun_noCancel unwrappingRun_settled printingRun_settled).1

end MVSync
