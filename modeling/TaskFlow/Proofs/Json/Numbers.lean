import Mathlib
import TaskFlow.Json.Lexer

namespace TaskFlow.Json

variable {rest : List Char} {c : Char} {n : Nat}

-- Whether a number in front of a text ends there.
def EndsNumber (cs : List Char) : Prop :=
  ∀ c ∈ cs.head?, c.isDigit = false ∧ c ≠ '.' ∧ c ≠ 'e' ∧ c ≠ 'E'

theorem head?_toDigits_ne (h : n ≠ 0) : (Nat.toDigits 10 n).head? ≠ some '0' := by
  have digit : ∀ m < 10, m ≠ 0 → [Nat.digitChar m].head? ≠ some '0' := by decide
  induction n using Nat.strong_induction_on
  case h n hi =>
    rw [Nat.toDigits_eq_if (by decide)]
    split
    case isTrue hn => exact digit n hn h
    case isFalse hn =>
      rw [List.head?_append_of_ne_nil _ Nat.toDigits_ne_nil]
      exact hi _ (by omega) (by omega)

theorem isDigit_of_mem_toDigits (n : Nat) : ∀ c ∈ Nat.toDigits 10 n, c.isDigit = true :=
  fun _ => Nat.isDigit_of_mem_toDigits (by decide) (by decide)

theorem digitRun_append {digits : List Char} (hd : ∀ c ∈ digits, c.isDigit = true)
    (hr : EndsNumber rest) : digitRun (digits ++ rest) = (digits, rest) := by
  have hr : rest.takeWhile Char.isDigit = [] ∧ rest.dropWhile Char.isDigit = rest := by
    cases rest
    case nil => simp
    case cons c cs => simp [(hr c rfl).1]
  rw [digitRun, List.takeWhile_append_of_pos hd, List.dropWhile_append_of_pos hd, hr.1, hr.2,
    List.append_nil]

theorem wholePart?_toDigits (n : Nat) (hr : EndsNumber rest) :
    wholePart? (Nat.toDigits 10 n ++ rest) = some (Nat.toDigits 10 n, rest) := by
  by_cases hn : n = 0
  case pos =>
    subst hn
    rfl
  case neg =>
    have hz := head?_toDigits_ne hn
    have hd := isDigit_of_mem_toDigits n
    have hrun := digitRun_append hd hr
    obtain ⟨c, cs, hcs⟩ := List.exists_cons_of_ne_nil (@Nat.toDigits_ne_nil n 10)
    rw [hcs] at hz hd hrun ⊢
    have hc : c ≠ '0' := by simpa using hz
    rw [List.cons_append, wholePart?, if_pos (hd c List.mem_cons_self), ← List.cons_append, hrun]
    exact hc

theorem fractionPart?_eq_none (hr : EndsNumber rest) : fractionPart? rest = none := by
  unfold fractionPart?
  split
  case h_1 => exact absurd rfl (hr _ rfl).2.1
  case h_2 => rfl

theorem exponentPart?_eq_none (hr : EndsNumber rest) : exponentPart? rest = none := by
  cases rest
  case nil => rfl
  case cons c cs => simp [exponentPart?, (hr c rfl).2.2]

theorem number?_of_signPart {cs : List Char} {negative : Bool}
    (hs : signPart [('-', true)] cs = (negative, Nat.toDigits 10 n ++ rest))
    (hr : EndsNumber rest) : number? cs = some (int (if negative then -n else n), rest) := by
  simp [number?, hs, wholePart?_toDigits n hr, fractionPart?_eq_none hr, exponentPart?_eq_none hr,
    Nat.ofDigitChars_ten_toDigits]

theorem exists_toDigits (n : Nat) : ∃ c cs, Nat.toDigits 10 n = c :: cs ∧ c.isDigit = true := by
  have ⟨c, cs, h⟩ := List.exists_cons_of_ne_nil (@Nat.toDigits_ne_nil n 10)
  exact ⟨c, cs, h, isDigit_of_mem_toDigits n c (h ▸ List.mem_cons_self)⟩

theorem ne_of_isDigit (h : c.isDigit = true) {d : Char} (hd : d.isDigit = false) : d ≠ c :=
  fun hdc => Bool.false_ne_true (hd.symm.trans (hdc ▸ h))

-- No word that is spelled out begins like a number.
theorem scalar?_toDigits (n : Nat) (hr : EndsNumber rest) :
    scalar? (Nat.toDigits 10 n ++ rest) = some (int n, rest) := by
  have ⟨c, cs, h, hc⟩ := exists_toDigits n
  have hs : signPart [('-', true)] (Nat.toDigits 10 n ++ rest)
      = (false, Nat.toDigits 10 n ++ rest) := by
    simp [h, signPart, List.lookup_cons, beq_false_of_ne (ne_of_isDigit hc (d := '-') rfl).symm]
  have hf : names.find? (·.1.toList.isPrefixOf (Nat.toDigits 10 n ++ rest)) = none := by
    simp [h, names, ne_of_isDigit hc]
  rw [scalar?, hf, number?_of_signPart hs hr]
  rfl

theorem scalar?_minus_toDigits (n : Nat) (hr : EndsNumber rest) :
    scalar? ('-' :: Nat.toDigits 10 n ++ rest) = some (int (-n), rest) := by
  have ⟨c, cs, h, hc⟩ := exists_toDigits n
  have hf : names.find? (·.1.toList.isPrefixOf ('-' :: Nat.toDigits 10 n ++ rest)) = none := by
    simp [h, names, ne_of_isDigit hc]
  rw [scalar?, hf, number?_of_signPart rfl hr]
  rfl

theorem toList_natCast (n : Nat) : (toString (n : Int)).toList = Nat.toDigits 10 n :=
  String.toList_ofList

theorem toList_negSucc (n : Nat) :
    (toString (Int.negSucc n)).toList = '-' :: Nat.toDigits 10 (n + 1) := by
  change ("-" ++ Nat.repr (n + 1)).toList = _
  simp [Nat.repr_eq_ofList_toDigits]

theorem scalar?_toString (i : Int) (hr : EndsNumber rest) :
    scalar? ((toString i).toList ++ rest) = some (int i, rest) := by
  cases i
  case ofNat n => exact toList_natCast n ▸ scalar?_toDigits n hr
  case negSucc n => exact toList_negSucc n ▸ scalar?_minus_toDigits (n + 1) hr

theorem mem_toString (i : Int) : ∀ c ∈ (toString i).toList, c = '-' ∨ c.isDigit = true := by
  cases i
  case ofNat n => exact fun c hc => .inr (isDigit_of_mem_toDigits n c (toList_natCast n ▸ hc))
  case negSucc n =>
    rw [toList_negSucc, List.forall_mem_cons]
    exact ⟨.inl rfl, fun c hc => .inr (isDigit_of_mem_toDigits _ c hc)⟩

theorem toString_ne_nil (i : Int) : (toString i).toList ≠ [] := by
  cases i
  case ofNat n => exact toList_natCast n ▸ Nat.toDigits_ne_nil
  case negSucc n => exact toList_negSucc n ▸ List.cons_ne_nil _ _

def marks : List Char :=
  ['\x7b', '\x7d', '[', ']', ':', ',', '"']

theorem exists_toString (i : Int) :
    ∃ c cs, (toString i).toList = c :: cs ∧ isSpace c = false ∧ c ∉ marks := by
  have ⟨c, cs, h⟩ := List.exists_cons_of_ne_nil (toString_ne_nil i)
  refine ⟨c, cs, h, ?_⟩
  obtain rfl | hc := mem_toString i c (h ▸ List.mem_cons_self)
  · decide
  · simp [isSpace, marks, (ne_of_isDigit hc _).symm]

end TaskFlow.Json
