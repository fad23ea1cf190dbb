import TaskFlow.Decimal.Nearest
import TaskFlow.Json

namespace TaskFlow.Json

inductive Cause
  | byteOrderMark
  | expectedValue
  | expectedName
  | expectedColon
  | expectedComma
  | unterminatedString
  | controlCharacter
  | escape
  | unicodeEscape
  | extraData
deriving DecidableEq, Repr

structure Fault where
  cause : Cause
  rest : List Char
deriving DecidableEq, Repr

inductive Word
  | openBrace
  | closeBrace
  | openBracket
  | closeBracket
  | colon
  | comma
  | string (s : String)
  | scalar (value : Json)
  | broken (fault : Fault)
  | stray
  | endOfText

structure Piece where
  word : Word
  rest : List Char

def isSpace (c : Char) : Bool :=
  c == ' ' || c == '\t' || c == '\n' || c == '\r'

def hexValue? (c : Char) : Option Nat :=
  if c.isDigit then some (c.toNat - '0'.toNat)
  else if 'a' ≤ c ∧ c ≤ 'f' then some (c.toNat - 'a'.toNat + 10)
  else if 'A' ≤ c ∧ c ≤ 'F' then some (c.toNat - 'A'.toNat + 10)
  else none

def codeUnit? (a b c d : Char) : Option Nat := do
  let a ← hexValue? a
  let b ← hexValue? b
  let c ← hexValue? c
  let d ← hexValue? d
  pure (((a * 16 + b) * 16 + c) * 16 + d)

def escaped? : Char → Option Char
  | '"' => some '"'
  | '\\' => some '\\'
  | '/' => some '/'
  | 'b' => some '\x08'
  | 'f' => some '\x0c'
  | 'n' => some '\n'
  | 'r' => some '\r'
  | 't' => some '\t'
  | _ => none

def isHighSurrogate (n : Nat) : Bool :=
  0xd800 ≤ n && n ≤ 0xdbff

def isLowSurrogate (n : Nat) : Bool :=
  0xdc00 ≤ n && n ≤ 0xdfff

-- The character of a code unit. Half of a surrogate pair is no character.
def unitChar (n : Nat) : Char :=
  if isHighSurrogate n || isLowSurrogate n then '\ufffd' else Char.ofNat n

def pairChar (high low : Nat) : Char :=
  Char.ofNat (0x10000 + (high - 0xd800) * 0x400 + (low - 0xdc00))

-- The characters of a string up to its closing quote, and what is left behind the quote. `opening`
-- is the text from the opening quote on; `done` holds the characters read before, latest first.
def stringFrom (opening done : List Char) : List Char → Except Fault (String × List Char)
  | [] => .error ⟨.unterminatedString, opening⟩
  | '"' :: rest => .ok (String.ofList done.reverse, rest)
  | '\\' :: 'u' :: a :: b :: c :: d :: '\\' :: 'u' :: a' :: b' :: c' :: d' :: e :: rest =>
    let second := '\\' :: 'u' :: a' :: b' :: c' :: d' :: e :: rest
    match codeUnit? a b c d with
    | none => .error ⟨.unicodeEscape, 'u' :: a :: b :: c :: d :: second⟩
    | some high =>
      if isHighSurrogate high then
        match codeUnit? a' b' c' d' with
        | none => .error ⟨.unicodeEscape, second.drop 1⟩
        | some low =>
          if isLowSurrogate low then stringFrom opening (pairChar high low :: done) (e :: rest)
          else stringFrom opening (unitChar high :: done) second
      else stringFrom opening (unitChar high :: done) second
  | '\\' :: 'u' :: a :: b :: c :: d :: e :: rest =>
    match codeUnit? a b c d with
    | none => .error ⟨.unicodeEscape, 'u' :: a :: b :: c :: d :: e :: rest⟩
    | some n => stringFrom opening (unitChar n :: done) (e :: rest)
  | '\\' :: 'u' :: rest => .error ⟨.unicodeEscape, 'u' :: rest⟩
  | ['\\'] => .error ⟨.unterminatedString, opening⟩
  | '\\' :: c :: rest =>
    match escaped? c with
    | none => .error ⟨.escape, '\\' :: c :: rest⟩
    | some c => stringFrom opening (c :: done) rest
  | c :: rest =>
    if c.toNat < 0x20 then .error ⟨.controlCharacter, c :: rest⟩
    else stringFrom opening (c :: done) rest

def digitRun (cs : List Char) : List Char × List Char :=
  (cs.takeWhile Char.isDigit, cs.dropWhile Char.isDigit)

-- The whole part of a number: a zero alone, or digits that begin with another one.
def wholePart? : List Char → Option (List Char × List Char)
  | '0' :: rest => some (['0'], rest)
  | c :: rest => if c.isDigit then some (digitRun (c :: rest)) else none
  | [] => none

-- The digits behind a decimal point, if both are there.
def fractionPart? : List Char → Option (List Char × List Char)
  | '.' :: c :: rest => if c.isDigit then some (digitRun (c :: rest)) else none
  | _ => none

def signPart (signs : List (Char × Bool)) : List Char → Bool × List Char
  | [] => (false, [])
  | c :: cs => (signs.lookup c).elim (false, c :: cs) (·, cs)

def exponentPart? : List Char → Option (Int × List Char)
  | [] => none
  | mark :: rest =>
    let (negative, rest) := signPart [('-', true), ('+', false)] rest
    let (digits, rest) := digitRun rest
    if (mark == 'e' || mark == 'E') && !digits.isEmpty then
      let n : Int := Nat.ofDigitChars 10 digits 0
      some (if negative then -n else n, rest)
    else none

def number? (cs : List Char) : Option (Json × List Char) :=
  let (negative, cs) := signPart [('-', true)] cs
  (wholePart? cs).map fun (whole, rest) =>
    let (fraction, rest) := (fractionPart? rest).getD ([], rest)
    let (exponent?, rest) := (exponentPart? rest).elim (none, rest) fun (e, rest) => (some e, rest)
    if fraction.isEmpty && exponent?.isNone then
      let n : Int := Nat.ofDigitChars 10 whole 0
      (int (if negative then -n else n), rest)
    else
      let x := Decimal.toFloat
        ⟨Nat.ofDigitChars 10 (whole ++ fraction) 0, exponent?.getD 0 - fraction.length⟩
      (float (if negative then -x else x), rest)

-- Words that are spelled out, and the values they stand for.
def names : List (String × Json) := [
  ("null", null), ("true", bool true), ("false", bool false), ("NaN", float (0 / 0)),
  ("Infinity", float (1 / 0)), ("-Infinity", float (-1 / 0))]

-- A scalar other than a string at the beginning of a text, and what is left behind it.
def scalar? (cs : List Char) : Option (Json × List Char) :=
  match names.find? (fun name => name.1.toList.isPrefixOf cs) with
  | some (name, value) => some (value, cs.drop name.length)
  | none => number? cs

def word (c : Char) (cs : List Char) : Word × List Char :=
  match c with
  | '\x7b' => (.openBrace, cs)
  | '\x7d' => (.closeBrace, cs)
  | '[' => (.openBracket, cs)
  | ']' => (.closeBracket, cs)
  | ':' => (.colon, cs)
  | ',' => (.comma, cs)
  | '"' =>
    match stringFrom ('"' :: cs) [] cs with
    | .ok (s, rest) => (.string s, rest)
    | .error fault => (.broken fault, [])
  | c =>
    match scalar? (c :: cs) with
    | some (value, rest) => (.scalar value, rest)
    | none => (.stray, [])

def Word.isLast : Word → Bool
  | broken _ | stray | endOfText => true
  | _ => false

theorem length_le_of_stringFrom {opening done cs rest : List Char} {s : String}
    (h : stringFrom opening done cs = .ok (s, rest)) : rest.length ≤ cs.length := by
  fun_induction stringFrom opening done cs
  all_goals first
    | (cases h; done)
    | (cases h; exact Nat.le_succ _)
    | (rename_i ih; have := ih h; simp only [List.length_cons] at this ⊢; omega)

theorem length_digitRun_le (cs : List Char) : (digitRun cs).2.length ≤ cs.length :=
  (List.dropWhile_sublist _).length_le

theorem length_signPart_le (signs : List (Char × Bool)) (cs : List Char) :
    (signPart signs cs).2.length ≤ cs.length := by
  cases cs with
  | nil => exact Nat.le_refl _
  | cons c cs => cases h : signs.lookup c <;> simp [signPart, h]

theorem length_lt_of_wholePart? {cs digits rest : List Char}
    (h : wholePart? cs = some (digits, rest)) : rest.length < cs.length := by
  unfold wholePart? at h
  split at h
  · cases h; simp
  · split at h
    · rename_i c cs _ hc
      have := length_digitRun_le cs
      simp only [digitRun, List.dropWhile_cons, hc, if_true, Option.some.injEq, Prod.mk.injEq] at h
      simp only [digitRun] at this
      simp only [← h.2, List.length_cons]
      omega
    · cases h
  · cases h

theorem length_le_of_fractionPart? {cs digits rest : List Char}
    (h : fractionPart? cs = some (digits, rest)) : rest.length ≤ cs.length := by
  unfold fractionPart? at h
  split at h
  · split at h
    · rename_i c cs _
      have := length_digitRun_le (c :: cs)
      rw [Option.some.inj h] at this
      simp only [List.length_cons] at this ⊢
      omega
    · cases h
  · cases h

theorem length_le_of_exponentPart? {cs rest : List Char} {e : Int}
    (h : exponentPart? cs = some (e, rest)) : rest.length ≤ cs.length := by
  unfold exponentPart? at h
  split at h
  · cases h
  · rename_i mark cs
    have h₁ := length_signPart_le [('-', true), ('+', false)] cs
    have h₂ := length_digitRun_le (signPart [('-', true), ('+', false)] cs).2
    simp only at h
    split at h
    · simp only [Option.some.injEq, Prod.mk.injEq] at h
      rw [h.2] at h₂
      simp only [List.length_cons]
      omega
    · cases h

theorem length_lt_of_number? {cs rest : List Char} {j : Json}
    (h : number? cs = some (j, rest)) : rest.length < cs.length := by
  have h₁ := length_signPart_le [('-', true)] cs
  simp only [number?, Option.map_eq_some_iff, Prod.exists] at h
  obtain ⟨whole, afterWhole, hw, h⟩ := h
  have h₂ := length_lt_of_wholePart? hw
  have h₃ : ((fractionPart? afterWhole).getD ([], afterWhole)).2.length ≤ afterWhole.length := by
    cases hf : fractionPart? afterWhole with
    | none => simp
    | some p => simpa using length_le_of_fractionPart? hf
  generalize (fractionPart? afterWhole).getD ([], afterWhole) = f at h h₃
  have h₄ : ((exponentPart? f.2).elim (none, f.2)
      fun p => (some p.1, p.2)).2.length ≤ f.2.length := by
    cases he : exponentPart? f.2 with
    | none => simp
    | some p => simpa using length_le_of_exponentPart? he
  generalize (exponentPart? f.2).elim (none, f.2) (fun p => (some p.1, p.2)) = g at h h₄
  have : g.2 = rest := by
    split at h <;> exact congrArg Prod.snd h
  rw [← this]
  omega

theorem length_lt_of_scalar? {cs rest : List Char} {j : Json}
    (h : scalar? cs = some (j, rest)) : rest.length < cs.length := by
  unfold scalar? at h
  split at h
  · rename_i name value hn
    have hmem := List.mem_of_find?_eq_some hn
    have hpre : name.toList.isPrefixOf cs = true := by simpa using List.find?_some hn
    have hle := (List.isPrefixOf_iff_prefix.1 hpre).length_le
    have : 0 < name.length := by
      simp only [names, List.mem_cons, Prod.mk.injEq, List.not_mem_nil, or_false] at hmem
      rcases hmem with h | h | h | h | h | h <;> rw [h.1] <;> decide
    cases h
    simp only [String.length_toList, List.length_drop] at hle ⊢
    omega
  · exact length_lt_of_number? h

theorem length_word_le (c : Char) (cs : List Char) : (word c cs).2.length ≤ cs.length := by
  unfold word
  split <;> try exact Nat.le_refl _
  · split
    · rename_i h
      exact length_le_of_stringFrom h
    · exact Nat.zero_le _
  · split
    · rename_i h
      exact Nat.le_of_lt_succ (length_lt_of_scalar? h)
    · exact Nat.zero_le _

-- Splitting a text into words never fails: what is no word, and what begins like a string and is
-- none, becomes a word of its own that ends the stream. Whether it matters depends on what is
-- expected in its place.
def words : List Char → List Piece
  | [] => [⟨.endOfText, []⟩]
  | c :: cs =>
    if isSpace c then words cs
    else
      let piece : Piece := ⟨(word c cs).1, c :: cs⟩
      if piece.word.isLast then [piece] else piece :: words (word c cs).2
termination_by cs => cs.length
decreasing_by
  · simp
  · exact Nat.lt_succ_of_le (length_word_le c cs)

end TaskFlow.Json
