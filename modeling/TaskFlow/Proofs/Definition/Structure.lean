import Mathlib
import TaskFlow.Definition

namespace TaskFlow.Definition

-- The parts of a definition stand in lists, so the induction has to go through three kinds of
-- lists. This is the form in which all later proofs use it.
@[elab_as_elim, induction_eliminator]
theorem induct {P : Definition → Prop}
    (task : ∀ t, P (task t))
    (sequence : ∀ ds, (∀ d ∈ ds, P d) → P (sequence ds))
    (split : ∀ ds, (∀ d ∈ ds, P d) → P (split ds))
    (transition : ∀ t cs, (∀ c ∈ cs, P c.2) → P (transition t cs)) (d : Definition) : P d :=
  @Definition.rec P (fun ds => ∀ d ∈ ds, P d) (fun cs => ∀ c ∈ cs, P c.2) (fun c => P c.2)
    task sequence split transition
    (List.forall_mem_nil _) (fun _ _ h hs => List.forall_mem_cons.mpr ⟨h, hs⟩)
    (List.forall_mem_nil _) (fun _ _ h hs => List.forall_mem_cons.mpr ⟨h, hs⟩)
    (fun _ _ h => h) d

-- A transition with a single clause is often a case of its own: its target goes on where it does.
@[elab_as_elim]
theorem induct_of_clauses {P : Definition → Prop}
    (task : ∀ t, P (task t))
    (sequence : ∀ ds, (∀ d ∈ ds, P d) → P (sequence ds))
    (split : ∀ ds, (∀ d ∈ ds, P d) → P (split ds))
    (only : ∀ t c, P c.2 → P (transition t [c]))
    (clauses : ∀ t cs, cs.length ≠ 1 → (∀ c ∈ cs, P c.2) → P (transition t cs))
    (d : Definition) : P d := by
  induction d
  case task t => exact task t
  case sequence ds hi => exact sequence ds hi
  case split ds hi => exact split ds hi
  case transition t cs hi =>
    by_cases hl : cs.length = 1
    case pos =>
      obtain ⟨c, rfl⟩ := List.length_eq_one_iff.mp hl
      exact only t c (hi c List.mem_cons_self)
    case neg => exact clauses t cs hl hi

section Fold

variable {β : Type} (task : TaskMention → β) (sequence split : List β → β)
  (transition : TaskMention → List (Clause × β) → β)

mutual

-- Gathers a value from the leaves up. A transition sees its clauses besides their values.
def fold : Definition → β
  | .task t => task t
  | .sequence ds => sequence (folds ds)
  | .split ds => split (folds ds)
  | .transition t cs => transition t (foldClauses cs)

def folds : List Definition → List β
  | [] => []
  | d :: ds => fold d :: folds ds

def foldClauses : List (Option String × Definition) → List (Clause × β)
  | [] => []
  | (p, d) :: cs => ((p, d), fold d) :: foldClauses cs

end

theorem folds_eq_map (ds : List Definition) :
    folds task sequence split transition ds = ds.map (fold task sequence split transition) := by
  induction ds
  case nil => rfl
  case cons hi => simp [folds, hi]

theorem foldClauses_eq_map (cs : List Clause) :
    foldClauses task sequence split transition cs
      = cs.map fun c => (c, fold task sequence split transition c.2) := by
  induction cs
  case nil => rfl
  case cons hi => simp [foldClauses, hi]

@[simp]
theorem fold_task (t : TaskMention) :
    fold task sequence split transition (.task t) = task t := by
  simp [fold]

@[simp]
theorem fold_sequence (ds : List Definition) :
    fold task sequence split transition (.sequence ds)
      = sequence (ds.map (fold task sequence split transition)) := by
  simp [fold, folds_eq_map]

@[simp]
theorem fold_split (ds : List Definition) :
    fold task sequence split transition (.split ds)
      = split (ds.map (fold task sequence split transition)) := by
  simp [fold, folds_eq_map]

@[simp]
theorem fold_transition (t : TaskMention) (cs : List Clause) :
    fold task sequence split transition (.transition t cs)
      = transition t (cs.map fun c => (c, fold task sequence split transition c.2)) := by
  simp [fold, foldClauses_eq_map]

end Fold

def mentions : Definition → List TaskMention :=
  fold (fun t => [t]) List.flatten List.flatten fun t cs => t :: cs.flatMap (·.2)

def labels (d : Definition) : List String :=
  d.mentions.filterMap (·.label)

def patternLists : Definition → List (List (Option String)) :=
  fold (fun _ => []) List.flatten List.flatten fun _ cs => cs.map (·.1.1) :: cs.flatMap (·.2)

section Equations

variable (t : TaskMention) (ds : List Definition) (cs : List Clause)

@[simp]
theorem mentions_task : (task t).mentions = [t] := by
  simp [mentions]

@[simp]
theorem mentions_sequence : (sequence ds).mentions = ds.flatMap mentions := by
  simp [mentions, List.flatMap_def]

@[simp]
theorem mentions_split : (split ds).mentions = ds.flatMap mentions := by
  simp [mentions, List.flatMap_def]

@[simp]
theorem mentions_transition :
    (transition t cs).mentions = t :: cs.flatMap (·.2.mentions) := by
  simp [mentions, List.flatMap_def, Function.comp_def]

@[simp]
theorem labels_task : (task t).labels = t.label.toList := by
  cases h : t.label <;> simp [labels, h]

@[simp]
theorem labels_sequence : (sequence ds).labels = ds.flatMap labels := by
  simp [labels, List.filterMap_flatMap]
  rfl

@[simp]
theorem labels_split : (split ds).labels = ds.flatMap labels := by
  simp [labels, List.filterMap_flatMap]
  rfl

@[simp]
theorem labels_transition :
    (transition t cs).labels = t.label.toList ++ cs.flatMap (·.2.labels) := by
  cases h : t.label <;> simp [labels, h, List.filterMap_flatMap]

@[simp]
theorem patternLists_task : (task t).patternLists = [] := by
  simp [patternLists]

@[simp]
theorem patternLists_sequence : (sequence ds).patternLists = ds.flatMap patternLists := by
  simp [patternLists, List.flatMap_def]

@[simp]
theorem patternLists_split : (split ds).patternLists = ds.flatMap patternLists := by
  simp [patternLists, List.flatMap_def]

@[simp]
theorem patternLists_transition :
    (transition t cs).patternLists = cs.map (·.1) :: cs.flatMap (·.2.patternLists) := by
  simp [patternLists, List.flatMap_def, Function.comp_def]

end Equations

-- Splicing the steps of sequences keeps what is gathered from their leaves.
theorem flatMap_inOrder {α : Type} {f : Definition → List α} {ds : List Definition}
    (h : ∀ ss, f (.sequence ss) = ss.flatMap f) : f (.inOrder ds) = ds.flatMap f := by
  have hs : (ds.flatMap steps).flatMap f = ds.flatMap f := by
    rw [List.flatMap_assoc]
    congr
    funext d
    cases d <;> simp [steps, h]
  unfold inOrder
  split
  · simp
  · rw [h, hs]

section Throughout

-- Whether the tasks that a definition mentions and the patterns of its transitions have given
-- properties.
def Throughout (Q : TaskMention → Prop) (R : List (Option String) → Prop) (d : Definition) : Prop :=
  (∀ t ∈ d.mentions, Q t) ∧ ∀ ps ∈ d.patternLists, R ps

variable {Q : TaskMention → Prop} {R : List (Option String) → Prop} {t : TaskMention}
  {ds : List Definition} {cs : List Clause}

@[simp]
theorem throughout_task : Throughout Q R (task t) ↔ Q t := by
  simp [Throughout]

theorem throughout_sequence : Throughout Q R (sequence ds) ↔ ∀ d ∈ ds, Throughout Q R d := by
  simp only [Throughout, mentions_sequence, patternLists_sequence, List.forall_mem_flatMap]
  exact ⟨fun ⟨h, h'⟩ d hd => ⟨h d hd, h' d hd⟩,
    fun h => ⟨fun d hd => (h d hd).1, fun d hd => (h d hd).2⟩⟩

theorem throughout_split : Throughout Q R (split ds) ↔ ∀ d ∈ ds, Throughout Q R d := by
  simp only [Throughout, mentions_split, patternLists_split, List.forall_mem_flatMap]
  exact ⟨fun ⟨h, h'⟩ d hd => ⟨h d hd, h' d hd⟩,
    fun h => ⟨fun d hd => (h d hd).1, fun d hd => (h d hd).2⟩⟩

theorem throughout_transition : Throughout Q R (transition t cs) ↔
    Q t ∧ R (cs.map (·.1)) ∧ ∀ c ∈ cs, Throughout Q R c.2 := by
  simp only [Throughout, mentions_transition, patternLists_transition, List.forall_mem_cons,
    List.forall_mem_flatMap]
  exact ⟨fun ⟨⟨hq, h⟩, hr, h'⟩ => ⟨hq, hr, fun c hc => ⟨h c hc, h' c hc⟩⟩,
    fun ⟨hq, hr, h⟩ => ⟨⟨hq, fun c hc => (h c hc).1⟩, hr, fun c hc => (h c hc).2⟩⟩

theorem throughout_inOrder : Throughout Q R (inOrder ds) ↔ ∀ d ∈ ds, Throughout Q R d := by
  rw [← throughout_sequence, Throughout, Throughout, flatMap_inOrder mentions_sequence,
    flatMap_inOrder patternLists_sequence, mentions_sequence, patternLists_sequence]

end Throughout

end TaskFlow.Definition
