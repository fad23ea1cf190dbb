import TaskFlow.Proofs.Reader.Text

namespace TaskFlow.Definition

open Lexeme Reading

-- Whether a branch or the target of a clause is empty, somewhere in a definition.
inductive Hollow : Definition → Prop
  | branch {ds} : sequence [] ∈ ds → Hollow (.split ds)
  | target {t p cs} : (p, sequence []) ∈ cs → Hollow (.transition t cs)
  | sequence {d ds} : d ∈ ds → Hollow d → Hollow (.sequence ds)
  | split {d ds} : d ∈ ds → Hollow d → Hollow (.split ds)
  | transition {t c cs} : c ∈ cs → Hollow c.2 → Hollow (.transition t cs)

-- Whether lexemes stand next to each other that cannot.
def Jars (ls : List Lexeme) : Prop :=
  ∃ ls₁ l l' ls₂, ls = ls₁ ++ l :: l' :: ls₂ ∧ Apart l l'

variable {d : Definition} {ds : List Definition} {limit : Int} {ls ls₁ : List Lexeme}
  {l sep : Lexeme}

theorem Jars.append (ls₁ ls₂ : List Lexeme) (h : Jars ls) : Jars (ls₁ ++ (ls ++ ls₂)) := by
  have ⟨pre, l, l', post, he, hl⟩ := h
  exact ⟨ls₁ ++ pre, l, l', post ++ ls₂, by simp [he], hl⟩

theorem Jars.append_left (h : Jars ls) : Jars (ls₁ ++ ls) := by
  simpa using h.append ls₁ []

theorem jars_flatMap {α : Type} {f : α → List Lexeme} {x : α} {xs : List α} (hx : x ∈ xs)
    (h : Jars (f x)) : Jars (xs.flatMap f) := by
  have ⟨pre, post, he⟩ := List.append_of_mem hx
  rw [he, List.flatMap_append, List.flatMap_cons]
  exact h.append _ _

theorem jars_intercalate (hd : d ∈ ds) (h : Jars d.spelling) :
    Jars ([sep].intercalate (ds.map spelling)) := by
  have ⟨pre, post, he⟩ := List.append_of_mem hd
  rw [he, List.map_append, List.map_cons, intercalate_append_cons]
  exact h.append _ _

theorem jars_enclose (h : Jars ls) : Jars (d.enclose ls) := by
  rw [enclose]
  split
  case isTrue  => exact h
  case isFalse => exact h.append [.openParen] [.closeParen]

-- What stands in front of an empty branch expects an element, and what stands behind it is none.
theorem jars_branch (h : sequence [] ∈ ds) : Jars (split ds).spelling := by
  have ⟨pre, post, he⟩ := List.append_of_mem h
  have hp : ∃ ls l, .openAngle :: (pre.map spelling).flatMap (· ++ [.bars]) = ls ++ [l] ∧
      (l.opens ∨ l = .bars) := by
    rcases List.eq_nil_or_concat pre with rfl | ⟨pre, d, rfl⟩
    case inl => exact ⟨[], .openAngle, by simp, .inl rfl⟩
    case inr =>
      refine ⟨.openAngle :: (pre.map spelling).flatMap (· ++ [.bars]) ++ d.spelling, .bars, ?_,
        .inr rfl⟩
      simp
  have hq : ∃ l ls, (post.map spelling).flatMap ([.bars] ++ ·) ++ [.closeAngle] = l :: ls ∧
      (l.closes ∨ l = .bars) := by
    cases post
    case nil => exact ⟨.closeAngle, [], by simp, .inl rfl⟩
    case cons d post => exact ⟨.bars, _, rfl, .inr rfl⟩
  obtain ⟨ls, l, hp, hl⟩ := hp
  obtain ⟨l', ls', hq, hl'⟩ := hq
  refine ⟨ls, l, l', ls', ?_, .inr ⟨hl, hl'⟩⟩
  rw [spelling_split, he, List.map_append, List.map_cons, intercalate_append_cons, spelling_sequence,
    List.map_nil, List.intercalate_nil, List.nil_append, ← List.cons_append, hp, List.append_assoc,
    hq, List.append_assoc]
  rfl

theorem Hollow.jars (h : d.Hollow) : Jars d.spelling := by
  induction h
  case branch h => exact jars_branch h
  case target p _ h =>
    rw [spelling_transition]
    refine (jars_flatMap h ?_).append_left
    exact ⟨[.arrow, statusLexeme (p.getD ""), .colon], .openParen, .closeParen, [], rfl,
      .inr ⟨.inl rfl, .inl rfl⟩⟩
  case sequence hm _ hi =>
    rw [spelling_sequence]
    exact jars_intercalate hm hi
  case split hm _ hi =>
    rw [spelling_split]
    exact (jars_intercalate hm hi).append [.openAngle] [.closeAngle]
  case transition hm _ hi =>
    rw [spelling_transition]
    exact (jars_flatMap hm (jars_enclose hi).append_left).append_left

theorem Hollow.not_read {a : Definition} (h : d.Hollow) (hw : d.Writable) (hc : ¬ d.Clashes) :
    read d.text limit ≠ .ok a := by
  have ⟨ls₁, l, l', ls₂, he, hl⟩ := h.jars
  have hs : lexemes d.text.toList = ls₁ ++ l :: l' :: (ls₂ ++ [.endOfInput]) := by
    have hs := spelled hw hc [] .nil (by simp)
    simpa [he] using hs
  exact read_ne_ok_of_apart hs hl rfl

end TaskFlow.Definition
