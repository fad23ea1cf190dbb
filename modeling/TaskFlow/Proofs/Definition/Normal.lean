import TaskFlow.Proofs.Definition.Spelling
import TaskFlow.Proofs.Reader.Soundness

namespace TaskFlow.Definition

-- Whether a definition can be a step of a sequence.
def isStep : Definition → Bool
  | sequence _ => false
  | _ => true

-- Whether nothing in a definition is empty or could be left out.
inductive Normal : Definition → Prop
  | task (t) : Normal (.task t)
  | sequence {ds} : 2 ≤ ds.length → (∀ d ∈ ds, d.isStep) → (∀ d ∈ ds, Normal d) →
    Normal (.sequence ds)
  | split {ds} : ds ≠ [] → (∀ d ∈ ds, Normal d) → Normal (.split ds)
  | transition {t cs} : cs ≠ [] → (∀ c ∈ cs, c.1.isSome) → (∀ c ∈ cs, Normal c.2) →
    Normal (.transition t cs)

variable {d : Definition} {ds : List Definition} {t : TaskMention} {cs : List Clause}

theorem normal_sequence : Normal (.sequence ds) ↔
    2 ≤ ds.length ∧ (∀ d ∈ ds, d.isStep) ∧ ∀ d ∈ ds, Normal d := by
  refine ⟨fun h => ?_, fun ⟨hl, hs, hn⟩ => .sequence hl hs hn⟩
  cases h
  exact ⟨‹_›, ‹_›, ‹_›⟩

theorem normal_split : Normal (.split ds) ↔ ds ≠ [] ∧ ∀ d ∈ ds, Normal d := by
  refine ⟨fun h => ?_, fun ⟨hl, hn⟩ => .split hl hn⟩
  cases h
  exact ⟨‹_›, ‹_›⟩

theorem normal_transition : Normal (.transition t cs) ↔
    cs ≠ [] ∧ (∀ c ∈ cs, c.1.isSome) ∧ ∀ c ∈ cs, Normal c.2 := by
  refine ⟨fun h => ?_, fun ⟨hl, hp, hn⟩ => .transition hl hp hn⟩
  cases h
  exact ⟨‹_›, ‹_›, ‹_›⟩

-- The induction over what has the normal form, with a transition that has a single clause as a case
-- of its own.
@[elab_as_elim]
theorem Normal.induct_of_clauses {P : (d : Definition) → d.Normal → Prop}
    (task : ∀ t, P (.task t) (.task t))
    (sequence : ∀ ds (hl : 2 ≤ ds.length) (hs : ∀ d ∈ ds, d.isStep) (hn : ∀ d ∈ ds, d.Normal),
      (∀ d (hd : d ∈ ds), P d (hn d hd)) → P (.sequence ds) (.sequence hl hs hn))
    (split : ∀ ds (hl : ds ≠ []) (hn : ∀ d ∈ ds, d.Normal),
      (∀ d (hd : d ∈ ds), P d (hn d hd)) → P (.split ds) (.split hl hn))
    (only : ∀ t c (h : (Definition.transition t [c]).Normal) (hn : c.2.Normal), P c.2 hn →
      P (.transition t [c]) h)
    (clauses : ∀ t cs (h : (Definition.transition t cs).Normal) (hn : ∀ c ∈ cs, c.2.Normal),
      cs.length ≠ 1 → (∀ c (hc : c ∈ cs), P c.2 (hn c hc)) → P (.transition t cs) h)
    (d : Definition) (h : d.Normal) : P d h := by
  induction h
  case task t => exact task t
  case sequence ds hl hs hn hi => exact sequence ds hl hs hn hi
  case split ds hl hn hi => exact split ds hl hn hi
  case transition t cs hne hs hn hi =>
    by_cases hl : cs.length = 1
    case pos =>
      obtain ⟨c, rfl⟩ := List.length_eq_one_iff.mp hl
      exact only t c _ (hn c List.mem_cons_self) (hi c List.mem_cons_self)
    case neg => exact clauses t cs _ hn hl hi

theorem steps_of_isStep (h : d.isStep) : d.steps = [d] := by
  cases d <;> first | rfl | cases h

theorem flatMap_steps_of_isStep (h : ∀ d ∈ ds, d.isStep) : ds.flatMap steps = ds := by
  induction ds
  case nil => rfl
  case cons d ds hi =>
    rw [List.forall_mem_cons] at h
    rw [List.flatMap_cons, steps_of_isStep h.1, hi h.2]
    rfl

theorem inOrder_of_isStep (hl : 2 ≤ ds.length) (h : ∀ d ∈ ds, d.isStep) :
    inOrder ds = sequence ds := by
  match ds with
  | [] | [_] => simp at hl
  | _ :: _ :: _ => rw [inOrder, flatMap_steps_of_isStep h]; simp

namespace Normal

theorem steps (h : d.Normal) :
    d.steps ≠ [] ∧ ∀ s ∈ d.steps, s.isStep ∧ s.Normal := by
  cases h
  case sequence ds hl hs hn =>
    refine ⟨?_, fun s hm => ⟨hs s hm, hn s hm⟩⟩
    rintro rfl
    cases hl
  case task => exact ⟨by simp [Definition.steps], by simp [Definition.steps, isStep, Normal.task]⟩
  case split ds hl hn =>
    exact ⟨by simp [Definition.steps], by simpa [Definition.steps, isStep] using Normal.split hl hn⟩
  case transition t cs hl hp hn =>
    refine ⟨by simp [Definition.steps], ?_⟩
    simpa [Definition.steps, isStep] using Normal.transition hl hp hn

theorem inOrder (h : ∀ d ∈ ds, d.Normal) (hn : ds ≠ []) : (inOrder ds).Normal := by
  match ds with
  | [] => contradiction
  | [d] => exact h d (by simp)
  | d :: d' :: ds =>
    have hs : ∀ s ∈ (d :: d' :: ds).flatMap Definition.steps, s.isStep ∧ s.Normal := by
      intro s hs
      have ⟨d, hd, hs⟩ := List.mem_flatMap.mp hs
      exact (h d hd).steps.2 s hs
    refine .sequence ?_ (fun s hm => (hs s hm).1) fun s hm => (hs s hm).2
    have h₁ := List.length_pos_iff.mpr (h d (by simp)).steps.1
    have h₂ := List.length_pos_iff.mpr (h d' (by simp)).steps.1
    simp only [List.flatMap_cons, List.length_append]
    omega

end Normal

end TaskFlow.Definition

namespace TaskFlow

open Definition

variable {n : Phrase} {ls : List Lexeme} {d : Definition} {ds : List Definition}

theorem Derives.normal (h : Derives n ls d) : d.Normal := by
  induction h
  case sequence ps hn _ hi => exact .inOrder (List.forall_mem_map.mpr hi) (by simpa using hn)
  case split hn _ hi => exact .split (by simpa using hn) (List.forall_mem_map.mpr hi)
  case group hi => exact hi
  case transition as _ hs _ hi =>
    cases as
    case nil => exact .task _
    case cons => exact .transition (by simp) (List.forall_mem_map.mpr hs) (List.forall_mem_map.mpr hi)
  case labeledTask => exact .task _
  case alternative hi => exact hi

theorem Derives.of_element (h : Derives .element ls d) : Derives .sequence ls d := by
  have hs : ∀ p ∈ [(ls, d)], Derives .element p.1 p.2 := List.forall_mem_singleton.mpr h
  simpa [inOrder] using Derives.sequence (by simp) hs

theorem pattern?_statusLexeme (p : String) : (statusLexeme p).pattern? = some p := by
  rw [statusLexeme]
  split
  all_goals rfl

theorem TaskMention.derives (t : TaskMention) : LabeledTask t.spelling t.bare := by
  obtain ⟨name, label, offset⟩ := t
  cases label
  case none => exact .plain name
  case some label => exact .labeled label name

namespace Definition

variable {t : TaskMention} {cs : List Clause}

@[simp]
theorem isStep_bare : d.bare.isStep = d.isStep := by
  cases d <;> simp [isStep]

-- Whether the lexemes of a definition denote it, wherever it may stand.
structure Denoted (d : Definition) : Prop where
  sequence : Derives .sequence d.spelling d.bare
  element : d.isStep → Derives .element d.spelling d.bare
  target : Derives .target (d.enclose d.spelling) d.bare

theorem Denoted.of_element (h : Derives .element d.spelling d.bare)
    (ht : Derives .target (d.enclose d.spelling) d.bare) : d.Denoted :=
  ⟨h.of_element, fun _ => h, ht⟩

theorem denoted_task : (task t).Denoted := by
  have ht := t.derives
  rw [← spelling_task] at ht
  have ht' : Derives .target (task t).spelling (task t).bare := by
    rw [bare_task]
    exact .alternative (by simp [Phrase.alternatives]) (.labeledTask ht)
  refine .of_element ?_ ht'
  rw [bare_task]
  exact .alternative (by simp [Phrase.alternatives]) (.of_task ht)

theorem denoted_sequence (hl : 2 ≤ ds.length) (hs : ∀ d ∈ ds, d.isStep) (h : ∀ d ∈ ds, d.Denoted) :
    (sequence ds).Denoted := by
  have hp : ∀ p ∈ ds.map fun d => (d.spelling, d.bare), Derives .element p.1 p.2 :=
    List.forall_mem_map.mpr fun d hm => (h d hm).element (hs d hm)
  have he : inOrder (ds.map bare) = .sequence (ds.map bare) :=
    inOrder_of_isStep (by simpa using hl) (by simpa using hs)
  have hn : ds ≠ [] := by
    rintro rfl
    simp at hl
  have hd := Derives.sequence (by simpa using hn) hp
  rw [List.map_map, List.map_map] at hd
  have hd : Derives .sequence (sequence ds).spelling (sequence ds).bare := by
    rw [spelling_sequence, bare_sequence, ← he]
    exact hd
  exact ⟨hd, nofun, .alternative (by simp [Phrase.alternatives]) (.group hd)⟩

theorem denoted_split (hn : ds ≠ []) (h : ∀ d ∈ ds, d.Denoted) : (split ds).Denoted := by
  have hp : ∀ p ∈ ds.map fun d => (d.spelling, d.bare), Derives .sequence p.1 p.2 :=
    List.forall_mem_map.mpr fun d hm => (h d hm).sequence
  have hd := Derives.split (by simpa using hn) hp
  rw [List.map_map, List.map_map] at hd
  have hd : Derives .split (split ds).spelling (split ds).bare := by
    rw [spelling_split, bare_split]
    exact hd
  exact .of_element (.alternative (by simp [Phrase.alternatives]) hd)
    (.alternative (by simp [Phrase.alternatives]) hd)

def arm (c : Clause) : Arm :=
  ⟨statusLexeme (c.1.getD ""), c.2.enclose c.2.spelling, c.2.bare⟩

theorem arm_clause {c : Clause} (h : c.1.isSome) : (arm c).clause = (c.1, c.2.bare) := by
  have ⟨p, hp⟩ := Option.isSome_iff_exists.mp h
  simp [arm, Arm.clause, pattern?_statusLexeme, hp]

theorem denoted_transition (hn : cs ≠ []) (hp : ∀ c ∈ cs, c.1.isSome) (h : ∀ c ∈ cs, c.2.Denoted) :
    (transition t cs).Denoted := by
  have hs : ∀ a ∈ cs.map arm, a.status.pattern?.isSome :=
    List.forall_mem_map.mpr fun c _ => by simp [arm, pattern?_statusLexeme]
  have ht : ∀ a ∈ cs.map arm, Derives .target a.lexemes a.target :=
    List.forall_mem_map.mpr fun c hc => (h c hc).target
  have hd := Derives.transition t.derives hs ht
  have hc : (cs.map arm).map Arm.clause = cs.map fun c => (c.1, c.2.bare) := by
    rw [List.map_map]
    exact List.map_congr_left fun c hc => arm_clause (hp c hc)
  -- There is a clause, so the source is not a definition by itself.
  have hx : Definition.ofClauses t.bare ((cs.map arm).map Arm.clause) = (transition t cs).bare := by
    rw [hc, bare_transition]
    cases cs
    case nil  => contradiction
    case cons => rfl
  rw [hx, List.flatMap_map] at hd
  have hd : Derives .element (transition t cs).spelling (transition t cs).bare := by
    rw [spelling_transition]
    exact .alternative (by simp [Phrase.alternatives]) hd
  exact .of_element hd (.alternative (by simp [Phrase.alternatives]) (.group hd.of_element))

theorem Normal.denoted (h : d.Normal) : d.Denoted := by
  induction h
  case task => exact denoted_task
  case sequence hl hs _ hi => exact denoted_sequence hl hs hi
  case split hn _ hi => exact denoted_split hn hi
  case transition hn hp _ hi => exact denoted_transition hn hp hi

end Definition

end TaskFlow
