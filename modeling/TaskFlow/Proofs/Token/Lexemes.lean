import Mathlib
import TaskFlow.Text.Blank
import TaskFlow.Token.Lexer

namespace TaskFlow

open Text

def lexemes (cs : List Char) : List Lexeme :=
  (Token.scanFrom 0 cs).map (·.lexeme)

variable {c : Char} {cs : List Char} {l : Lexeme}

theorem scanFrom_cons {pos : Nat} : Token.scanFrom pos (c :: cs) =
    if Lexeme.isGap c then Token.scanFrom (pos + 1) cs
    else
      match Lexeme.first? c cs with
      | none => [⟨.invalid c, pos⟩]
      | some (l, rest) => ⟨l, pos⟩ :: Token.scanFrom (pos + l.text.length) rest := by
  rw [Token.scanFrom]
  congr
  split
  all_goals simp_all

theorem map_lexeme_scanFrom {pos : Nat} : (Token.scanFrom pos cs).map (·.lexeme) = lexemes cs := by
  suffices ∀ pos', (Token.scanFrom pos cs).map (·.lexeme) = (Token.scanFrom pos' cs).map (·.lexeme)
    from this 0
  fun_induction Token.scanFrom pos cs <;> intro pos'
  case case1 => simp [Token.scanFrom]
  case case2 hg hi =>
    rw [scanFrom_cons, if_pos hg]
    exact hi _
  case case3 hg hf =>
    rw [scanFrom_cons, if_neg hg, hf]
    rfl
  case case4 hg l rest hf hi =>
    rw [scanFrom_cons, if_neg hg, hf]
    simp [← hi]

@[simp]
theorem lexemes_nil : lexemes [] = [.endOfInput] := by
  simp [lexemes, Token.scanFrom]

theorem lexemes_cons : lexemes (c :: cs) =
    if Lexeme.isGap c then lexemes cs
    else
      match Lexeme.first? c cs with
      | none => [.invalid c]
      | some (l, rest) => l :: lexemes rest := by
  rw [lexemes, scanFrom_cons]
  split
  · exact map_lexeme_scanFrom
  split
  · rfl
  · simp [map_lexeme_scanFrom]

-- The induction that follows the way in which lexemes are found.
@[elab_as_elim]
theorem lexemes_induct {P : List Char → Prop} (nil : P [])
    (gap : ∀ c cs, Lexeme.isGap c → P cs → P (c :: cs))
    (stop : ∀ c cs, ¬ Lexeme.isGap c → Lexeme.first? c cs = none → P (c :: cs))
    (lexeme : ∀ c cs l rest, ¬ Lexeme.isGap c → Lexeme.first? c cs = some (l, rest) → P rest →
      P (c :: cs))
    (cs : List Char) : P cs :=
  Token.scanFrom.induct (motive := fun _ cs => P cs) (fun _ => nil)
    (fun _ c cs hg hi => gap c cs hg hi) (fun _ c cs hg hf => stop c cs hg hf)
    (fun _ c cs hg l rest hf hi => lexeme c cs l rest hg hf hi) 0 cs

-- The lexemes that end a stream.
def Lexeme.isLast : Lexeme → Bool
  | endOfInput | invalid _ => true
  | _ => false

theorem isLast_of_first? {rest : List Char} (h : Lexeme.first? c cs = some (l, rest)) :
    l.isLast = false := by
  unfold Lexeme.first? at h
  split at h
  · cases h
    rfl
  split at h
  · split at h <;> cases h
    rfl
  · split at h <;> cases h
    all_goals rfl

-- A stream has one last lexeme, and it stands at the end.
theorem exists_lexemes_eq (cs : List Char) :
    ∃ ls l, lexemes cs = ls ++ [l] ∧ l.isLast ∧ ∀ l ∈ ls, l.isLast = false := by
  induction cs using lexemes_induct
  case nil => exact ⟨[], .endOfInput, lexemes_nil, rfl, List.forall_mem_nil _⟩
  case gap hg hi => rwa [lexemes_cons, if_pos hg]
  case stop c cs hg hf =>
    refine ⟨[], .invalid c, ?_, rfl, List.forall_mem_nil _⟩
    simp [lexemes_cons, hg, hf]
  case lexeme hg hf hi =>
    have ⟨ls, l', he, hl, hls⟩ := hi
    refine ⟨_ :: ls, l', ?_, hl, List.forall_mem_cons.mpr ⟨isLast_of_first? hf, hls⟩⟩
    simp [lexemes_cons, hg, hf, he]

-- Beyond ASCII stand the characters of the long list only.
theorem isWord_of_lt (h : c.toNat < 128) : isWord c = (c.isAlphanum || c == '_') := by
  have hr : ∀ r ∈ letterOrNumber, 128 ≤ r.1 := by decide +kernel
  have : letterOrNumber.any (·.covers c) = false := by
    rw [← Bool.not_eq_true, List.any_eq_true]
    rintro ⟨r, hm, hc⟩
    have := hr r hm
    have := CodeRange.covers_iff.mp hc
    omega
  simp [isWord, this]

section Blanks

theorem exists_range_of_isBlank (h : isBlank c) : ∃ b ∈ blanks, b.1 ≤ c.toNat ∧ c.toNat ≤ b.2 := by
  simpa [isBlank, CodeRange.covers] using h

theorem blanks_apart : ∀ b ∈ blanks, b.2 < 48 ∨ 122 < b.1 := by
  decide

theorem blanks_apart_letterOrNumber :
    ∀ b ∈ blanks, ∀ r ∈ letterOrNumber, b.2 < r.1 ∨ r.2 < b.1 := by
  decide +kernel

theorem toNat_of_isAlphanum (h : c.isAlphanum) : 48 ≤ c.toNat ∧ c.toNat ≤ 122 := by
  simp only [Char.isAlphanum, Char.isAlpha, Char.isUpper, Char.isLower, Char.isDigit, Bool.or_eq_true,
    Bool.and_eq_true, decide_eq_true_eq, UInt32.le_iff_toNat_le, ge_iff_le,
    Char.reduceVal, UInt32.reduceToNat] at h
  simp only [Char.toNat]
  omega

theorem not_isWord_of_isBlank (h : isBlank c) : isWord c = false := by
  have ⟨b, hb, hc⟩ := exists_range_of_isBlank h
  rw [← Bool.not_eq_true]
  intro hw
  simp only [isWord, Bool.or_eq_true, List.any_eq_true, beq_iff_eq] at hw
  have hn := blanks_apart b hb
  rcases hw with (ha | rfl) | ⟨r, hr, hrc⟩
  · have := toNat_of_isAlphanum ha
    omega
  · simp at hc
    omega
  · have := blanks_apart_letterOrNumber b hb r hr
    have := CodeRange.covers_iff.mp hrc
    omega

theorem first?_of_isBlank (h : isBlank c) : Lexeme.first? c cs = none := by
  have hw := not_isWord_of_isBlank h
  unfold Lexeme.first?
  split
  case isTrue hn =>
    simp only [Lexeme.isNameChar, hw, Bool.or_eq_true, Bool.and_eq_true, beq_iff_eq] at hn
    rcases hn with (hn | rfl) | ⟨rfl, _⟩
    · cases hn
    · cases h
    · cases h
  split
  case isTrue hq =>
    rw [beq_iff_eq] at hq
    subst hq
    cases h
  split
  case h_10 => rfl
  all_goals cases h

theorem lexemes_of_blank (h : cs.all isBlank) : ∃ l, lexemes cs = [l] := by
  induction cs using lexemes_induct
  case nil => exact ⟨_, lexemes_nil⟩
  case gap hg hi =>
    rw [lexemes_cons, if_pos hg]
    exact hi (by simp_all)
  case stop hg hf => simp [lexemes_cons, hg, hf]
  case lexeme hf _ =>
    rw [List.all_cons, Bool.and_eq_true] at h
    rw [first?_of_isBlank h.1] at hf
    cases hf

theorem not_blank_of_lexemes {ls : List Lexeme} (h : lexemes cs = ls ++ [l]) (hn : ls ≠ []) :
    cs.all isBlank = false := by
  rw [← Bool.not_eq_true]
  intro hb
  have ⟨l', he⟩ := lexemes_of_blank hb
  have he : ls ++ [l] = [] ++ [l'] := h.symm.trans he
  exact hn (List.append_inj' he rfl).1

end Blanks

end TaskFlow
