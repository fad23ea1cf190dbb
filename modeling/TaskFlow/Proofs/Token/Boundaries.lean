import TaskFlow.Proofs.Grammar
import TaskFlow.Proofs.Token.Lexemes

namespace TaskFlow

open Lexeme

variable {c : Char} {cs rest : List Char} {s : String}

section Names

-- A name goes on as long as it can, and a dash at its end must not meet a closing bracket.
theorem nameRun_append_of_stops (h : (nameRun cs).2 = []) (hr : ∀ c tl, rest = c :: tl →
    isNameChar c tl = false) (hd : cs.getLast? = some '-' → rest.head? ≠ some '>') :
    nameRun (cs ++ rest) = (cs, rest) := by
  induction cs
  case nil =>
    cases rest
    case nil => rfl
    case cons c tl => simp [nameRun, hr c tl rfl]
  case cons c cs hi =>
    have hc : isNameChar c cs := by
      rw [← Bool.not_eq_false]
      intro hc
      simp [nameRun, hc] at h
    have ht : (nameRun cs).2 = [] := by simpa [nameRun, hc] using h
    have hc' : isNameChar c (cs ++ rest) := by
      cases cs
      case nil =>
        simp only [isNameChar, Bool.or_eq_true, Bool.and_eq_true, beq_iff_eq] at hc ⊢
        refine hc.imp_right fun hc => ⟨hc.1, ?_⟩
        simpa [hc.1] using hd
      case cons => exact hc
    have hd' : cs.getLast? = some '-' → rest.head? ≠ some '>' := by
      intro hl
      refine hd ?_
      rw [List.getLast?_cons, hl]
      rfl
    simp [nameRun, hc', hi ht hd']

theorem isNameChar_of_isName (h : isName s) : ∃ c cs, s.toList = c :: cs ∧ isNameChar c cs := by
  simp only [isName, Bool.and_eq_true, Bool.not_eq_true', List.isEmpty_iff] at h
  cases hs : s.toList
  case nil =>
    have : s = "" := String.toList_eq_nil_iff.mp hs
    simp [this] at h
  case cons c cs =>
    refine ⟨c, cs, rfl, ?_⟩
    rw [← Bool.not_eq_false]
    intro hc
    simp [hs, nameRun, hc] at h

theorem not_isGap_of_isNameChar (h : isNameChar c cs) : isGap c = false := by
  rw [← Bool.not_eq_true]
  intro hg
  simp only [isGap, Bool.or_eq_true, beq_iff_eq] at hg
  simp only [isNameChar, Bool.or_eq_true, Bool.and_eq_true, beq_iff_eq] at h
  rcases hg with (((rfl | rfl) | rfl) | rfl) | rfl <;> simp [isWord_of_lt] at h

theorem lexemes_name (h : isName s) (hr : ∀ c tl, rest = c :: tl → isNameChar c tl = false)
    (hd : s.toList.getLast? = some '-' → rest.head? ≠ some '>') :
    lexemes (s.toList ++ rest) = .identifier s :: lexemes rest := by
  have ⟨c, cs, hs, hc⟩ := isNameChar_of_isName h
  have hn : (nameRun s.toList).2 = [] := by simp_all [isName]
  have hx := nameRun_append_of_stops hn hr hd
  rw [hs, List.cons_append, nameRun] at hx
  split at hx
  case isTrue hc' =>
    have ht := congrArg (·.1.tail) hx
    have hl := congrArg (·.2) hx
    dsimp at ht hl
    rw [hs, List.cons_append, lexemes_cons, not_isGap_of_isNameChar hc]
    simp only [first?, hc', if_true, ht, hl, ← hs, String.ofList_toList, Bool.false_eq_true, if_false]
  case isFalse => simp at hx

theorem first?_quoted (h : s.toList.all isQuotable) :
    first? '\'' (s.toList ++ '\'' :: rest) = some (.quoted s, rest) := by
  have hq : isNameChar '\'' (s.toList ++ '\'' :: rest) = false := by
    simp [isNameChar, isWord_of_lt]
  have hs : ∀ c ∈ s.toList, isQuotable c := by simpa using h
  have hd : (s.toList ++ '\'' :: rest).dropWhile isQuotable = '\'' :: rest := by
    rw [List.dropWhile_append_of_pos hs]
    rfl
  have ht : (s.toList ++ '\'' :: rest).takeWhile isQuotable = s.toList := by
    rw [List.takeWhile_append_of_pos hs]
    simp [isQuotable]
  unfold first?
  rw [if_neg (by simp [hq]), if_pos (by rfl), hd, ht]
  simp only [String.ofList_toList]

theorem lexemes_quoted (h : s.toList.all isQuotable) :
    lexemes (('\'' :: s.toList) ++ '\'' :: rest) = .quoted s :: lexemes rest := by
  rw [List.cons_append, lexemes_cons, if_neg (by decide), first?_quoted h]

end Names

section Boundaries

-- What may follow a part of a text.
def boundaries : List String :=
  [")", ">", " && ", " || ", " -> "]

-- Whether a part of a text may end in front of the given characters.
def Boundary (rest : List Char) : Prop :=
  rest = [] ∨ ∃ s ∈ boundaries, ∃ tl, rest = s.toList ++ tl

def symbol? : Char → List Char → Option (Lexeme × List Char)
  | '&', '&' :: rest => some (.ampersands, rest)
  | '|', '|' :: rest => some (.bars, rest)
  | '-', '>' :: rest => some (.arrow, rest)
  | ':', rest => some (.colon, rest)
  | '(', rest => some (.openParen, rest)
  | ')', rest => some (.closeParen, rest)
  | '<', rest => some (.openAngle, rest)
  | '>', rest => some (.closeAngle, rest)
  | '*', rest => some (.star, rest)
  | _, _ => none

theorem first?_eq_symbol? (hn : isNameChar c cs = false) (hq : (c == '\'') = false) :
    first? c cs = symbol? c cs := by
  unfold first?
  rw [hn, if_neg Bool.false_ne_true, hq, if_neg Bool.false_ne_true]
  rfl

theorem lexemes_symbol {l : Lexeme} (hg : isGap c = false) (hn : isNameChar c cs = false)
    (hq : (c == '\'') = false) (hs : symbol? c cs = some (l, rest)) :
    lexemes (c :: cs) = l :: lexemes rest := by
  rw [lexemes_cons, hg, first?_eq_symbol? hn hq, hs]
  rfl

theorem lexemes_space : lexemes (' ' :: cs) = lexemes cs := by
  rw [lexemes_cons, if_pos (by rfl)]

theorem isNameChar_dash : isNameChar '-' ('>' :: cs) = false := by
  simp [isNameChar, isWord_of_lt]

theorem lexemes_openAngle : lexemes ('<' :: cs) = .openAngle :: lexemes cs :=
  lexemes_symbol rfl (by simp [isNameChar, isWord_of_lt]) rfl rfl

theorem lexemes_closeAngle : lexemes ('>' :: cs) = .closeAngle :: lexemes cs :=
  lexemes_symbol rfl (by simp [isNameChar, isWord_of_lt]) rfl rfl

theorem lexemes_openParen : lexemes ('(' :: cs) = .openParen :: lexemes cs :=
  lexemes_symbol rfl (by simp [isNameChar, isWord_of_lt]) rfl rfl

theorem lexemes_closeParen : lexemes (')' :: cs) = .closeParen :: lexemes cs :=
  lexemes_symbol rfl (by simp [isNameChar, isWord_of_lt]) rfl rfl

theorem lexemes_colon : lexemes (':' :: cs) = .colon :: lexemes cs :=
  lexemes_symbol rfl (by simp [isNameChar, isWord_of_lt]) rfl rfl

theorem lexemes_ampersands : lexemes ('&' :: '&' :: cs) = .ampersands :: lexemes cs :=
  lexemes_symbol rfl (by simp [isNameChar, isWord_of_lt]) rfl rfl

theorem lexemes_bars : lexemes ('|' :: '|' :: cs) = .bars :: lexemes cs :=
  lexemes_symbol rfl (by simp [isNameChar, isWord_of_lt]) rfl rfl

theorem lexemes_arrow : lexemes ('-' :: '>' :: cs) = .arrow :: lexemes cs :=
  lexemes_symbol rfl isNameChar_dash rfl rfl

-- Whether a text that stands between two parts reads as a single lexeme.
structure Separates (sep : String) (l : Lexeme) : Prop where
  mem : sep ∈ boundaries
  head : ∀ cs, (sep.toList ++ cs).head? = some ' '
  lexemes : ∀ cs, lexemes (sep.toList ++ cs) = l :: lexemes cs

theorem separates_ampersands : Separates " && " .ampersands where
  mem := by simp [boundaries]
  head cs := rfl
  lexemes cs := (lexemes_space.trans lexemes_ampersands).trans (congrArg _ lexemes_space)

theorem separates_bars : Separates " || " .bars where
  mem := by simp [boundaries]
  head cs := rfl
  lexemes cs := (lexemes_space.trans lexemes_bars).trans (congrArg _ lexemes_space)

theorem separates_arrow : Separates " -> " .arrow where
  mem := by simp [boundaries]
  head cs := rfl
  lexemes cs := (lexemes_space.trans lexemes_arrow).trans (congrArg _ lexemes_space)

namespace Boundary

theorem nil : Boundary [] :=
  .inl rfl

theorem closeAngle : Boundary ('>' :: cs) :=
  .inr ⟨">", by simp [boundaries], cs, rfl⟩

theorem closeParen : Boundary (')' :: cs) :=
  .inr ⟨")", by simp [boundaries], cs, rfl⟩

theorem separator {sep : String} {l : Lexeme} (h : Separates sep l) : Boundary (sep.toList ++ cs) :=
  .inr ⟨sep, h.mem, cs, rfl⟩

theorem isNameChar (h : Boundary (c :: cs)) : isNameChar c cs = false := by
  have hc : c = ')' ∨ c = '>' ∨ c = ' ' := by
    obtain h | ⟨s, hs, tl, he⟩ := h
    · cases h
    · have hh := congrArg List.head? he
      simp only [boundaries, List.mem_cons, List.not_mem_nil, or_false] at hs
      rcases hs with rfl | rfl | rfl | rfl | rfl <;> simp at hh <;> simp [hh]
  rcases hc with rfl | rfl | rfl <;> simp [Lexeme.isNameChar, isWord_of_lt]

-- Nothing that may follow a part reads as a status.
theorem exists_lexemes (h : Boundary rest) : ∃ l ls, TaskFlow.lexemes rest = l :: ls ∧ l.pattern? = none := by
  obtain rfl | ⟨s, hs, tl, rfl⟩ := h
  · exact ⟨_, _, lexemes_nil, rfl⟩
  · simp only [boundaries, List.mem_cons, List.not_mem_nil, or_false] at hs
    rcases hs with rfl | rfl | rfl | rfl | rfl
    · exact ⟨_, _, lexemes_closeParen, rfl⟩
    · exact ⟨_, _, lexemes_closeAngle, rfl⟩
    · exact ⟨_, _, separates_ampersands.lexemes tl, rfl⟩
    · exact ⟨_, _, separates_bars.lexemes tl, rfl⟩
    · exact ⟨_, _, separates_arrow.lexemes tl, rfl⟩

end Boundary

end Boundaries

end TaskFlow
