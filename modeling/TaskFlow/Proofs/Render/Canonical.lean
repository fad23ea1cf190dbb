import TaskFlow.Proofs.Definition.Openings
import TaskFlow.Proofs.Layout.Anchored

namespace TaskFlow

open TaskFlow.Graph Subgraph Definition Lexeme

variable {d : Definition} {ds : List Definition} {f : Subgraph} {g : Graph} {limit : Int}
  {t : TaskMention} {p : Option String}

-- A part of a text, and whether it is a task or a split, which need no parentheses behind a clause.
structure Part where
  text : String
  isSimple : Bool

namespace Part

def target (p : Part) : String :=
  if p.isSimple then p.text else "(" ++ p.text ++ ")"

def joined (ps : List Part) : String :=
  " && ".intercalate (ps.map (·.text))

-- The text of several parts behind one of several clauses.
def joinedTarget : List Part → String
  | [p] => p.target
  | ps => "(" ++ joined ps ++ ")"

def clause (pattern : Option String) (target : String) : String :=
  " -> " ++ statusText (pattern.getD "") ++ ": " ++ target

-- Writes the first of several parts behind the only clause of a task. The others are not bound to
-- it.
def behind (t : TaskMention) (pattern : Option String) : List Part → List Part
  | [] => []
  | p :: ps => ⟨t.text ++ clause pattern p.target, false⟩ :: ps

end Part

namespace Definition

def textParts : Definition → List Part :=
  fold (fun t => [⟨t.text, true⟩]) List.flatten
    (fun bs => [⟨"<" ++ " || ".intercalate (bs.map Part.joined) ++ ">", true⟩]) fun t cs =>
    match cs with
    | [(c, ps)] => Part.behind t c.1 ps
    | cs => [⟨t.text ++ String.join (cs.map fun (c, ps) => Part.clause c.1 (Part.joinedTarget ps)),
        false⟩]

-- The parts of a definition, a `&&` between neighbours.
def canonicalText (d : Definition) : String :=
  Part.joined d.textParts

def asPart (d : Definition) : Part :=
  ⟨d.text, d.isSimple⟩

theorem joined_asPart (h : ∀ d ∈ ds, d.isStep) :
    Part.joined (ds.map asPart) = (inOrder ds).text := by
  have ht : Part.joined (ds.map asPart) = " && ".intercalate (ds.map text) := by
    rw [Part.joined, List.map_map]
    rfl
  rw [ht]
  match ds with
  | [] => simp [inOrder, text, texts]
  | [d] => simp [inOrder]
  | d :: d' :: ds => rw [inOrder_of_isStep (by simp) h, text, texts_eq_map]

theorem joinedTarget_asPart (h : ∀ d ∈ ds, d.isStep) : Part.joinedTarget (ds.map asPart)
    = if (inOrder ds).isSimple then (inOrder ds).text else "(" ++ (inOrder ds).text ++ ")" := by
  match ds with
  | [d] => rfl
  | [] => simp [Part.joinedTarget, Part.joined, inOrder, isSimple, text, texts]
  | d :: d' :: ds =>
    have hj := joined_asPart h
    rw [inOrder_of_isStep (by simp) h] at hj ⊢
    rw [if_neg (by simp [isSimple]), ← hj]
    rfl

theorem clausesText_eq {cs : List Clause} : clausesText cs = String.join (cs.map fun c =>
    Part.clause c.1 (if c.2.isSimple then c.2.text else "(" ++ c.2.text ++ ")")) := by
  induction cs
  case nil => simp [clausesText]
  case cons c cs hi =>
    rw [clausesText, hi, List.map_cons, String.join_cons]
    rfl

theorem asPart_transition {cs : List Clause} :
    asPart (transition t.bare cs) = ⟨t.text ++ clausesText cs, false⟩ := by
  rw [asPart, text]
  rfl

section Equations

variable {c : Clause} {cs : List Clause}

theorem textParts_sequence : (sequence ds).textParts = ds.flatMap textParts := by
  simp [textParts, List.flatMap_def]

theorem textParts_split : (split ds).textParts
    = [⟨"<" ++ " || ".intercalate (ds.map canonicalText) ++ ">", true⟩] := by
  have hc : canonicalText = fun d => Part.joined d.textParts := rfl
  simp [textParts, hc, Function.comp_def]

theorem textParts_only_clause :
    (transition t [c]).textParts = Part.behind t c.1 c.2.textParts := by
  simp [textParts]

theorem textParts_clauses (h : cs.length ≠ 1) : (transition t cs).textParts = [⟨t.text
    ++ String.join (cs.map fun c => Part.clause c.1 (Part.joinedTarget c.2.textParts)), false⟩] := by
  match cs with
  | [] => simp [textParts]
  | [_] => simp at h
  | _ :: _ :: _ => simp [textParts, Function.comp_def]

end Equations

theorem textParts_eq : d.textParts = d.parts.map asPart := by
  induction d using induct_of_clauses
  case task t =>
    have : t.bare.text = t.text := rfl
    simp [textParts, asPart, text, isSimple, this]
  case sequence ds hi =>
    rw [textParts_sequence, parts_sequence, List.map_flatMap]
    exact List.flatMap_congr hi
  case split ds hi =>
    have hc : ∀ d ∈ ds, d.canonicalText = (text ∘ canonical) d := fun d hd => by
      rw [canonicalText, hi d hd, joined_asPart isStep_parts]
      rfl
    rw [textParts_split, parts_split, List.map_congr_left hc, ← List.map_map]
    simp [asPart, text, texts_eq_map, isSimple]
  case only t c hi =>
    rw [textParts_only_clause, parts_only_clause, hi]
    -- The first part behind the task becomes its target, and the others stay as they are.
    cases c.2.parts
    case nil => rfl
    case cons p ps =>
      rw [under, List.map_cons, List.map_cons, asPart_transition, clausesText_eq]
      simp [Part.behind, Part.target, asPart]
      rfl
  case clauses t cs hl hi =>
    have hc : ∀ c ∈ cs, Part.clause c.1 (Part.joinedTarget c.2.textParts) = Part.clause c.1
        (if c.2.canonical.isSimple then c.2.canonical.text else "(" ++ c.2.canonical.text ++ ")") :=
      fun c hc => by rw [hi c hc, joinedTarget_asPart isStep_parts]; rfl
    rw [textParts_clauses hl, parts_clauses hl, List.map_congr_left hc, List.map_singleton,
      asPart_transition, clausesText_eq, List.map_map]
    rfl

theorem canonicalText_eq : d.canonicalText = d.canonical.text := by
  rw [canonicalText, textParts_eq, joined_asPart isStep_parts, canonical]

end Definition

theorem Block.length_nodes (h : Block d f) : f.nodes.length = d.size := by
  have hs {bs : List (Definition × Subgraph)} (hi : ∀ b ∈ bs, b.2.nodes.length = b.1.size) :
      (bs.flatMap (·.2.nodes)).length = ((bs.map (·.1)).map size).sum := by
    rw [List.length_flatMap, List.map_congr_left hi, List.map_map]
    rfl
  induction h
  case task => rfl
  case sequence hi => rw [nodes_chained, List.flatMap_map, hs hi, size_sequence]
  case split hi =>
    rw [sideBySide, List.flatMap_map, size_split, ← hs hi]
    simp
    omega
  case transition cs _ _ hi =>
    have hi : ∀ b ∈ cs.map (·.2), b.2.nodes.length = b.1.size := List.forall_mem_map.mpr hi
    have := hs hi
    rw [List.flatMap_map, List.map_map, List.map_map] at this
    simp only [select, List.flatMap_map, List.length_cons, this, size_transition, List.map_map]
    exact Nat.add_comm _ 1

namespace Definition

namespace WellFormed

variable (h : d.WellFormed)

include h

theorem writable_canonical : d.canonical.Writable :=
  writable_iff.mpr (throughout_canonical
    ⟨fun t ht => ⟨(h.writable.named t ht).name, (h.writable.named t ht).label⟩, h.writable.quotable⟩)

theorem bracketDepth_lt_size : bracketDepth d.canonical.text < d.size := by
  have h₁ := bracketDepth_text_le h.writable_canonical
  have h₂ := h.normal.canonical.openings_lt_size
  rw [h.normal.size_canonical] at h₂
  omega

theorem walkable_of_size (hl : (d.size : Int) ≤ limit) : Walkable limit 0 0 d where
  regions := by
    have := h.normal.regionDepth_lt_size
    omega
  leads := h.normal.leadsFit_of_size (by simpa using hl)

-- The graph of a well-formed definition has no other text than the canonical one, and it has this
-- one if the limit is at least the number of its nodes.
theorem exists_toGraph_render : ∃ g, d.toGraph = .ok g ∧
    (∀ limit text, g.render limit = .ok text → text = d.canonicalText) ∧
    ∀ limit : Int, g.nodes.length ≤ limit → g.render limit = .ok d.canonicalText := by
  have ⟨f, hf, hx⟩ := h.drawn
  refine ⟨f.whole, hf, fun limit text ht => ?_, fun limit hl => ?_⟩
  · rw [canonicalText_eq]
    exact ((hx.render_eq_ok_iff h).mp ht).1
  · have hs : f.whole.nodes.length = d.size + 2 := congrArg (· + 2) hx.block.length_nodes
    have := h.bracketDepth_lt_size
    refine (hx.render_eq_ok_iff h).mpr ⟨canonicalText_eq, h.walkable_of_size ?_, ?_⟩
    all_goals omega

end WellFormed

-- A task with an only clause, which leads to two steps.
def twoSteps : Definition :=
  .transition ⟨"a", none, 0⟩ [(some "X", .sequence [.task ⟨"b", none, 0⟩, .task ⟨"c", none, 0⟩])]

theorem wellFormed_twoSteps : twoSteps.WellFormed where
  normal := by
    refine .transition (by simp) (by simp) (List.forall_mem_singleton.mpr (.sequence (by simp) ?_ ?_))
    · simp [isStep]
    · simp [Normal.task]
  writable := by
    have hn {s : String} (hs : s ∈ ["a", "b", "c"]) : TaskMention.Named ⟨s, none, 0⟩ := by
      refine ⟨?_, by simp⟩
      revert s
      simp [isName, nameRun, isNameChar, isWord_of_lt]
    exact ⟨by simp [twoSteps, hn], by simp [twoSteps, Quotable, isQuotable]⟩
  labels := by simp [twoSteps]
  selective := by
    have : twoSteps.patternLists = [[some "X"]] := by simp [twoSteps]
    rw [this, List.forall_mem_singleton]
    exact ⟨by decide, by decide, by decide⟩

theorem statusText_twoSteps : statusText "X" = "X" := by
  simp [statusText, isName, nameRun, isNameChar, isWord_of_lt]

theorem canonicalText_twoSteps : twoSteps.canonicalText = "a -> X: b && c" := by
  simp [twoSteps, canonicalText, textParts, Part.behind, Part.clause, Part.target, Part.joined,
    TaskMention.text, statusText_twoSteps]

theorem render_twoSteps : ∃ g, twoSteps.toGraph = .ok g ∧
    (∀ limit text, g.render limit = .ok text → text = "a -> X: b && c") ∧
    ∀ limit : Int, g.nodes.length ≤ limit → g.render limit = .ok "a -> X: b && c" := by
  exact canonicalText_twoSteps ▸ wellFormed_twoSteps.exists_toGraph_render

end Definition

end TaskFlow
