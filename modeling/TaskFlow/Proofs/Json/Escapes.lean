import Mathlib
import TaskFlow.Json.Lexer
import TaskFlow.Json.Printer

namespace TaskFlow.Json

variable {opening done rest : List Char} {c : Char} {n : Nat}

section CodeUnits

theorem hexValue?_hexDigit (h : n < 16) : hexValue? (Text.hexDigit n) = some n := by
  revert n
  decide

-- The four digits of a code unit.
theorem hex_four (n : Nat) : Text.hex 4 n = [Text.hexDigit (n / 16 / 16 / 16 % 16),
    Text.hexDigit (n / 16 / 16 % 16), Text.hexDigit (n / 16 % 16), Text.hexDigit (n % 16)] :=
  rfl

theorem codeUnit?_hexDigit (h : n < 0x10000) : codeUnit? (Text.hexDigit (n / 16 / 16 / 16 % 16))
    (Text.hexDigit (n / 16 / 16 % 16)) (Text.hexDigit (n / 16 % 16)) (Text.hexDigit (n % 16))
      = some n := by
  have hv (m : Nat) : hexValue? (Text.hexDigit (m % 16)) = some (m % 16) :=
    hexValue?_hexDigit (Nat.mod_lt _ (by decide))
  simp only [codeUnit?, hv, bind, Option.bind, pure, Option.some.injEq]
  omega

theorem isHighSurrogate_iff : isHighSurrogate n = true ↔ 0xd800 ≤ n ∧ n ≤ 0xdbff := by
  simp [isHighSurrogate]

theorem isLowSurrogate_iff : isLowSurrogate n = true ↔ 0xdc00 ≤ n ∧ n ≤ 0xdfff := by
  simp [isLowSurrogate]

theorem toNat_valid (c : Char) : c.toNat < 0xd800 ∨ 0xdfff < c.toNat ∧ c.toNat < 0x110000 :=
  c.valid

-- No character has the code of half a surrogate pair.
theorem not_isHighSurrogate (c : Char) : isHighSurrogate c.toNat = false := by
  have := toNat_valid c
  rw [Bool.eq_false_iff, Ne, isHighSurrogate_iff]
  omega

theorem not_isLowSurrogate (c : Char) : isLowSurrogate c.toNat = false := by
  have := toNat_valid c
  rw [Bool.eq_false_iff, Ne, isLowSurrogate_iff]
  omega

theorem unitChar_toNat (c : Char) : unitChar c.toNat = c := by
  simp [unitChar, not_isHighSurrogate, not_isLowSurrogate]

def highHalf (c : Char) : Nat :=
  0xd800 + (c.toNat - 0x10000) / 0x400

def lowHalf (c : Char) : Nat :=
  0xdc00 + (c.toNat - 0x10000) % 0x400

theorem isHighSurrogate_highHalf (c : Char) : isHighSurrogate (highHalf c) = true := by
  have := toNat_valid c
  rw [isHighSurrogate_iff, highHalf]
  omega

theorem isLowSurrogate_lowHalf (c : Char) : isLowSurrogate (lowHalf c) = true := by
  rw [isLowSurrogate_iff, lowHalf]
  omega

theorem pairChar_halves (h : 0x10000 ≤ c.toNat) : pairChar (highHalf c) (lowHalf c) = c := by
  have hn : 0x10000 + (highHalf c - 0xd800) * 0x400 + (lowHalf c - 0xdc00) = c.toNat := by
    simp only [highHalf, lowHalf]
    omega
  rw [pairChar, hn, Char.ofNat_toNat]

end CodeUnits

section Steps

-- A text fits exactly one of the forms that the reader tells apart.
theorem stringFrom_self (hc : 0x20 ≤ c.toNat) (hq : c ≠ '"') (hb : c ≠ '\\') :
    stringFrom opening done (c :: rest) = stringFrom opening (c :: done) rest := by
  rw [stringFrom.eq_def]
  split <;> grind

theorem stringFrom_escaped {e : Char} (h : escaped? e = some c) :
    stringFrom opening done ('\\' :: e :: rest) = stringFrom opening (c :: done) rest := by
  have he : e ≠ 'u' := by
    rintro rfl
    cases h
  rw [stringFrom.eq_def]
  split <;> grind

variable {a b c d e a' b' c' d' : Char}

theorem stringFrom_unit (h : codeUnit? a b c d = some n) (hs : isHighSurrogate n = false) :
    stringFrom opening done ('\\' :: 'u' :: a :: b :: c :: d :: e :: rest)
      = stringFrom opening (unitChar n :: done) (e :: rest) := by
  rw [stringFrom.eq_def]
  split <;> grind

theorem stringFrom_pair {high low : Nat} (h : codeUnit? a b c d = some high)
    (hs : isHighSurrogate high = true) (h' : codeUnit? a' b' c' d' = some low)
    (hs' : isLowSurrogate low = true) :
    stringFrom opening done
        ('\\' :: 'u' :: a :: b :: c :: d :: '\\' :: 'u' :: a' :: b' :: c' :: d' :: e :: rest)
      = stringFrom opening (pairChar high low :: done) (e :: rest) := by
  rw [stringFrom.eq_def]
  simp [h, h', hs, hs']

end Steps

section Characters

-- A `\u` escape is read if something stands behind it, which is the closing quote at least.
theorem stringFrom_charText (c : Char) {e : Char} :
    stringFrom opening done (charText c ++ e :: rest)
      = stringFrom opening (c :: done) (e :: rest) := by
  unfold charText
  split
  case h_8 hq hb hn hr ht hbs hf =>
    simp only [Bool.and_eq_true, decide_eq_true_eq]
    split
    case isTrue h => exact stringFrom_self h.1 hq hb
    case isFalse =>
      split
      case isTrue h =>
        refine (stringFrom_unit (codeUnit?_hexDigit h) (not_isHighSurrogate c)).trans ?_
        rw [unitChar_toNat]
      case isFalse h =>
        have hh := isHighSurrogate_highHalf c
        have hl := isLowSurrogate_lowHalf c
        have hh' : highHalf c < 0x10000 := by grind [isHighSurrogate_iff]
        have hl' : lowHalf c < 0x10000 := by grind [isLowSurrogate_iff]
        refine (stringFrom_pair (codeUnit?_hexDigit hh') hh (codeUnit?_hexDigit hl') hl).trans ?_
        rw [pairChar_halves (Nat.le_of_not_lt h)]
  all_goals exact stringFrom_escaped rfl

theorem stringFrom_flatMap (cs : List Char) : stringFrom opening done
    (cs.flatMap charText ++ '"' :: rest) = .ok (String.ofList (done.reverse ++ cs), rest) := by
  induction cs generalizing done
  case nil => simp [stringFrom]
  case cons c cs hi =>
    -- What stands behind a character is not empty: a quote at least.
    have ⟨e, es, he⟩ := List.exists_cons_of_ne_nil
      (l := cs.flatMap charText ++ '"' :: rest) (by simp)
    rw [List.flatMap_cons, List.append_assoc, he, stringFrom_charText, ← he, hi]
    simp

theorem toList_stringText (s : String) :
    (stringText s).toList = '"' :: (s.toList.flatMap charText ++ ['"']) := by
  simp [stringText]

theorem word_stringText (s : String) (rest : List Char) :
    word '"' (s.toList.flatMap charText ++ '"' :: rest) = (.string s, rest) := by
  simp [word, stringFrom_flatMap]

end Characters

section Ascii

-- Whether a character is plain text: ASCII, and visible or a space.
def IsPlain (c : Char) : Prop :=
  0x20 ≤ c.toNat ∧ c.toNat < 0x7f

instance : DecidablePred IsPlain :=
  fun _ => inferInstanceAs (Decidable (_ ∧ _))

theorem isPlain_hexDigit (h : n < 16) : IsPlain (Text.hexDigit n) := by
  revert n
  decide

theorem isPlain_unitEscape (n : Nat) : ∀ x ∈ unitEscape n, IsPlain x := by
  have hd (m : Nat) : IsPlain (Text.hexDigit (m % 16)) :=
    isPlain_hexDigit (Nat.mod_lt _ (by decide))
  simp [unitEscape, hex_four, hd, show IsPlain '\\' by decide, show IsPlain 'u' by decide]

theorem isPlain_charText (c : Char) : ∀ x ∈ charText c, IsPlain x := by
  unfold charText
  split
  case h_8 =>
    simp only [Bool.and_eq_true, decide_eq_true_eq]
    split
    case isTrue h => exact List.forall_mem_singleton.mpr h
    case isFalse =>
      split
      case isTrue => exact isPlain_unitEscape _
      case isFalse =>
        exact List.forall_mem_append.mpr ⟨isPlain_unitEscape _, isPlain_unitEscape _⟩
  all_goals exact List.forall_mem_cons.mpr ⟨by decide, List.forall_mem_singleton.mpr (by decide)⟩

theorem isPlain_stringText (s : String) : ∀ x ∈ (stringText s).toList, IsPlain x := by
  have hq : IsPlain '"' := by decide
  rw [toList_stringText, List.forall_mem_cons, List.forall_mem_append, List.forall_mem_flatMap,
    List.forall_mem_singleton]
  exact ⟨hq, fun c _ => isPlain_charText c, hq⟩

end Ascii

end TaskFlow.Json
