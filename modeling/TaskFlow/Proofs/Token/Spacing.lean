import TaskFlow.Proofs.Token.Boundaries

namespace TaskFlow

open Lexeme

variable {c : Char} {cs gap rest : List Char} {l : Lexeme} {ls : List Lexeme}

section Writable

def Lexeme.Writable : Lexeme → Prop
  | identifier s => isName s
  | quoted s => s.toList.all isQuotable
  | _ => True

-- A run of identifier characters is one also when nothing follows it.
theorem nameRun_nameRun (cs : List Char) : (nameRun (nameRun cs).1).2 = [] := by
  induction cs
  case nil => rfl
  case cons c cs hi =>
    rw [nameRun]
    split
    case isFalse => rfl
    case isTrue hc =>
      have hc' : isNameChar c (nameRun cs).1 := by
        simp only [isNameChar, Bool.or_eq_true, Bool.and_eq_true] at hc ⊢
        refine hc.imp_right fun h => ⟨h.1, ?_⟩
        -- What follows in the run is what follows in the text, if anything does.
        cases cs
        case nil => rfl
        case cons d ds =>
          rw [nameRun]
          split
          case isTrue  => exact h.2
          case isFalse => rfl
      simp only [nameRun, hc', if_true]
      exact hi

theorem writable_of_first? (h : first? c cs = some (l, rest)) : l.Writable := by
  unfold first? at h
  split at h
  case isTrue hc =>
    cases h
    have hr : (nameRun (c :: (nameRun cs).1)).2 = [] := by
      have := nameRun_nameRun (c :: cs)
      simpa [nameRun, hc] using this
    simp [Lexeme.Writable, isName, hr]
  case isFalse =>
    split at h
    case isTrue =>
      split at h <;> cases h
      simp [Lexeme.Writable]
    case isFalse =>
      split at h <;> cases h
      all_goals trivial

theorem writable_of_mem_lexemes (h : l ∈ lexemes cs) : l.Writable := by
  induction cs using lexemes_induct
  case nil =>
    simp at h
    exact h ▸ trivial
  case gap hg hi =>
    rw [lexemes_cons, if_pos hg] at h
    exact hi h
  case stop hg hf =>
    simp [lexemes_cons, hg, hf] at h
    exact h ▸ trivial
  case lexeme hg hf hi =>
    simp [lexemes_cons, hg, hf] at h
    obtain rfl | h := h
    case inl => exact writable_of_first? hf
    case inr => exact hi h

theorem forall_mem_of_lexemes_eq (h : lexemes cs = ls ++ [l]) :
    ∀ l ∈ ls, l.Writable ∧ l.isLast = false := by
  obtain ⟨ls', l', he, _, hls⟩ := exists_lexemes_eq cs
  obtain rfl := (List.append_inj' (h.symm.trans he) rfl).1
  exact fun l hl => ⟨writable_of_mem_lexemes (h ▸ List.mem_append_left _ hl), hls l hl⟩

end Writable

-- Whether characters are the texts of lexemes one behind the other, with a gap between neighbours
-- and perhaps around all of them.
inductive Spaced : List Lexeme → List Char → Prop
  | nil {gap : List Char} : (∀ c ∈ gap, isGap c) → Spaced [] gap
  | cons {gap : List Char} {l : Lexeme} {ls : List Lexeme} {cs : List Char} :
    (∀ c ∈ gap, isGap c) → (∀ c ∈ cs.head?, isGap c) → Spaced ls cs →
    Spaced (l :: ls) (gap ++ (l.text.toList ++ cs))

theorem lexemes_gap (h : ∀ c ∈ gap, isGap c) : lexemes (gap ++ cs) = lexemes cs := by
  induction gap
  case nil => rfl
  case cons c gap hi =>
    rw [List.forall_mem_cons] at h
    rw [List.cons_append, lexemes_cons, if_pos h.1, hi h.2]

-- In front of a gap, or of the end, a lexeme is over.
theorem lexemes_append (hw : l.Writable) (hl : l.isLast = false) (hg : ∀ c ∈ cs.head?, isGap c) :
    lexemes (l.text.toList ++ cs) = l :: lexemes cs := by
  cases l
  case identifier s =>
    refine lexemes_name hw (fun c tl he => ?_) fun _ hd => ?_
    · rw [← Bool.not_eq_true]
      intro hc
      have := hg c (by rw [he]; rfl)
      rw [not_isGap_of_isNameChar hc] at this
      cases this
    · cases hg _ hd
  case quoted s => simpa [text] using @lexemes_quoted cs s hw
  case invalid | endOfInput => cases hl
  case ampersands => exact lexemes_ampersands
  case bars => exact lexemes_bars
  case arrow => exact lexemes_arrow
  case colon => exact lexemes_colon
  case openParen => exact lexemes_openParen
  case closeParen => exact lexemes_closeParen
  case openAngle => exact lexemes_openAngle
  case closeAngle => exact lexemes_closeAngle
  case star =>
    change lexemes ('*' :: cs) = _
    exact lexemes_symbol rfl (by simp [isNameChar, isWord_of_lt]) rfl rfl

theorem Spaced.lexemes_eq (h : Spaced ls cs) (hl : ∀ l ∈ ls, l.Writable ∧ l.isLast = false) :
    lexemes cs = ls ++ [.endOfInput] := by
  induction h
  case nil gap hg =>
    rw [← List.append_nil gap, lexemes_gap hg]
    exact lexemes_nil
  case cons hg hc _ hi =>
    rw [List.forall_mem_cons] at hl
    rw [lexemes_gap hg, lexemes_append hl.1.1 hl.1.2 hc, hi hl.2]
    rfl

theorem exists_spaced (ls : List Lexeme) : ∃ text : String, Spaced ls text.toList := by
  suffices ∃ cs, Spaced ls cs ∧ ∀ c ∈ cs.head?, isGap c by
    obtain ⟨cs, h, _⟩ := this
    exact ⟨String.ofList cs, by rwa [String.toList_ofList]⟩
  induction ls
  case nil => exact ⟨[], .nil (List.forall_mem_nil _), by simp⟩
  case cons l ls hi =>
    obtain ⟨cs, h, hc⟩ := hi
    have hg : ∀ c ∈ [' '], isGap c := List.forall_mem_singleton.mpr rfl
    exact ⟨_, .cons hg hc h, by simp [isGap]⟩

end TaskFlow
