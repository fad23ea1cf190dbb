import TaskFlow.Proofs.Definition.Openings
import TaskFlow.Proofs.Reader.Legible
import TaskFlow.Proofs.Reader.Mentions
import TaskFlow.Proofs.Reader.Viability

namespace TaskFlow

open Lexeme

variable {ls : List Lexeme} {t : TaskMention} {d : Definition}

section Writable

theorem TaskMention.Named.writable (h : t.Named) : ∀ l ∈ t.spelling, l.Writable := by
  rw [TaskMention.spelling, List.forall_mem_append]
  refine ⟨?_, List.forall_mem_singleton.mpr h.name⟩
  cases hl : t.label
  case none => exact List.forall_mem_nil _
  case some label =>
    refine List.forall_mem_cons.mpr ⟨h.label label (by simp [hl]), ?_⟩
    exact List.forall_mem_singleton.mpr trivial

theorem writable_statusLexeme {p : Option String} (h : Quotable p) :
    (statusLexeme (p.getD "")).Writable := by
  rw [statusLexeme]
  split
  case isTrue hn => exact hn
  case isFalse => exact h

theorem Definition.writable_enclose (h : ∀ l ∈ ls, l.Writable) : ∀ l ∈ d.enclose ls, l.Writable := by
  rw [enclose]
  split
  case isTrue => exact h
  case isFalse =>
    rw [List.cons_append, List.forall_mem_cons, List.forall_mem_append]
    exact ⟨trivial, h, List.forall_mem_singleton.mpr trivial⟩

theorem Definition.Writable.spelling (h : d.Writable) : ∀ l ∈ d.spelling, l.Writable := by
  induction d
  case task =>
    rw [spelling_task]
    exact (h.named _ (by simp)).writable
  case sequence ds hi =>
    rw [spelling_sequence]
    exact forall_mem_intercalate trivial
      (List.forall_mem_map.mpr fun d hd => hi d hd (h.of_mem_sequence hd))
  case split ds hi =>
    rw [spelling_split, List.cons_append, List.forall_mem_cons, List.forall_mem_append]
    refine ⟨trivial, forall_mem_intercalate trivial ?_, List.forall_mem_singleton.mpr trivial⟩
    exact List.forall_mem_map.mpr fun d hd => hi d hd (h.of_mem_split hd)
  case transition t cs hi =>
    rw [spelling_transition, List.forall_mem_append, List.forall_mem_flatMap]
    refine ⟨(h.named t (by simp)).writable, fun c hc => ?_⟩
    obtain ⟨hq, hw⟩ := h.of_mem_transition hc
    simp only [List.cons_append, List.nil_append, List.forall_mem_cons]
    exact ⟨trivial, writable_statusLexeme hq, trivial, writable_enclose (hi c hc hw)⟩

end Writable

namespace Definition

section Bare

theorem normal_bare : d.bare.Normal ↔ d.Normal := by
  induction d
  case task =>
    rw [bare_task]
    exact iff_of_true (.task _) (.task _)
  case sequence ds hi =>
    simp only [bare_sequence, normal_sequence, List.length_map, List.forall_mem_map, isStep_bare]
    exact and_congr_right' (and_congr_right' (forall₂_congr hi))
  case split ds hi =>
    simp only [bare_split, normal_split, List.forall_mem_map, ne_eq, List.map_eq_nil_iff]
    exact and_congr_right' (forall₂_congr hi)
  case transition t cs hi =>
    simp only [bare_transition, normal_transition, List.forall_mem_map, ne_eq, List.map_eq_nil_iff]
    exact and_congr_right' (and_congr_right' (forall₂_congr hi))

theorem WellFormed.of_bare (h : d.bare.WellFormed) : d.WellFormed where
  normal := normal_bare.mp h.normal
  writable.named t ht := by
    have := h.writable.named t.bare (mentions_bare ▸ List.mem_map_of_mem ht)
    exact ⟨this.name, this.label⟩
  writable.quotable := patternLists_bare ▸ h.writable.quotable
  labels := labels_bare ▸ h.labels
  selective := patternLists_bare ▸ h.selective

end Bare

-- No bracket is too many if the limit is the number of brackets.
theorem WellFormed.exists_text (h : d.WellFormed) :
    ∃ (text : String) (limit : Nat) (a : Definition),
      read text limit = .ok a ∧ a.bare = d.bare := by
  obtain ⟨text, ht⟩ := exists_spaced d.spelling
  have hd := h.normal.denoted.sequence
  have hl := ht.lexemes_eq fun l hl => ⟨h.writable.spelling l hl, hd.isLast_eq_false l hl⟩
  refine ⟨text, d.spelling.countP opens, exists_read_iff.mpr ⟨_, hl, hd, ?_, ?_, ?_⟩⟩
  · exact nestsFrom_of_countP (by omega)
  · rw [labels_bare]
    exact h.labels
  · rw [patternLists_bare]
    exact h.selective

-- The well-formed definitions are all that can be read, up to offsets.
theorem read_image :
    (∀ text limit a, read text limit = .ok a → a.WellFormed ∧ a.Located text) ∧
    ∀ d : Definition, d.WellFormed → ∃ (text : String) (limit : Nat) (a : Definition),
      read text limit = .ok a ∧ a.bare = d.bare :=
  ⟨fun _ _ _ h => ⟨(wellFormed_of_read h).of_bare, located_of_read h⟩, fun _ h => h.exists_text⟩

end Definition

theorem scan_dashInSplit : Token.scan "<a- >"
    = [⟨.openAngle, 0⟩, ⟨.identifier "a-", 1⟩, ⟨.closeAngle, 4⟩, ⟨.endOfInput, 5⟩] := by
  simp [Token.scan, scanFrom_cons, isGap, first?, isNameChar, nameRun, isWord_of_lt]
  simp only [Token.scanFrom, text]
  decide

theorem read_dashInSplit : Definition.read "<a- >" 1
    = .ok (.split [.task { name := "a-", offset := 1 }]) := by
  rw [Definition.read, scan_dashInSplit]
  rfl

theorem Definition.read_image_dashInSplit :
    Located "<a- >" (split [task { name := "a-", offset := 1 }]) ∧
      ∃ (text : String) (limit : Nat) (a : Definition), read text limit = .ok a ∧
        a.bare = (split [task { name := "a-", offset := 1 }]).bare :=
  have ⟨hi, hc⟩ := read_image
  have ⟨hw, hl⟩ := hi _ _ _ read_dashInSplit
  ⟨hl, hc _ hw⟩

end TaskFlow
