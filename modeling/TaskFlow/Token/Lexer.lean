import TaskFlow.Text.Word
import TaskFlow.Token

namespace TaskFlow

open Text

namespace Lexeme

def isGap (c : Char) : Bool :=
  c == ' ' || c == '\t' || c == '\n' || c == '\x0c' || c == '\r'

-- Whether `c` belongs to an identifier when `rest` follows it. A dash does unless it begins an
-- arrow.
def isNameChar (c : Char) (rest : List Char) : Bool :=
  isWord c || c == '.' || (c == '-' && rest.head? != some '>')

def nameRun : List Char → List Char × List Char
  | [] => ([], [])
  | c :: cs => if isNameChar c cs then ((nameRun cs).1.cons c, (nameRun cs).2) else ([], c :: cs)

def isQuotable (c : Char) : Bool :=
  c != '\'' && c != '\n'

-- Reading never fails: where no lexeme begins, the stream ends with an `invalid` lexeme of one
-- character, and whoever reads the tokens decides what to make of it.
def first? (c : Char) (cs : List Char) : Option (Lexeme × List Char) :=
  if isNameChar c cs then
    some (identifier (String.ofList (c :: (nameRun cs).1)), (nameRun cs).2)
  else if c == '\'' then
    match cs.dropWhile isQuotable with
    | '\'' :: rest => some (quoted (String.ofList (cs.takeWhile isQuotable)), rest)
    | _ => none
  else
    match c, cs with
    | '&', '&' :: rest => some (ampersands, rest)
    | '|', '|' :: rest => some (bars, rest)
    | '-', '>' :: rest => some (arrow, rest)
    | ':', rest => some (colon, rest)
    | '(', rest => some (openParen, rest)
    | ')', rest => some (closeParen, rest)
    | '<', rest => some (openAngle, rest)
    | '>', rest => some (closeAngle, rest)
    | '*', rest => some (star, rest)
    | _, _ => none

-- Nothing is lost: the run and the rest make up the characters.
theorem nameRun_append (cs : List Char) : (nameRun cs).1 ++ (nameRun cs).2 = cs := by
  induction cs with
  | nil => rfl
  | cons c cs ih =>
    unfold nameRun
    split
    · simp [ih]
    · rfl

theorem takeWhile_append_dropWhile_quote {cs rest : List Char}
    (h : cs.dropWhile isQuotable = '\'' :: rest) :
    cs = cs.takeWhile isQuotable ++ '\'' :: rest := by
  rw [← h, List.takeWhile_append_dropWhile]

-- A lexeme and the rest behind it make up the characters.
theorem eq_append_of_first? {c : Char} {cs rest : List Char} {l : Lexeme}
    (h : first? c cs = some (l, rest)) : c :: cs = l.text.toList ++ rest := by
  unfold first? at h
  split at h
  · obtain ⟨rfl, rfl⟩ := Prod.mk.inj (Option.some.inj h)
    simp [text, nameRun_append]
  · split at h
    · rename_i hc
      split at h
      · rename_i rest' heq
        obtain ⟨rfl, rfl⟩ := Prod.mk.inj (Option.some.inj h)
        rw [beq_iff_eq.1 hc]
        simp [text, ← takeWhile_append_dropWhile_quote heq]
      · cases h
    · split at h <;> cases h <;> simp [text]

theorem text_ne_empty_of_first? {c : Char} {cs rest : List Char} {l : Lexeme}
    (h : first? c cs = some (l, rest)) : l.text.toList ≠ [] := by
  unfold first? at h
  split at h
  · obtain ⟨rfl, rfl⟩ := Prod.mk.inj (Option.some.inj h)
    simp [text]
  · split at h
    · split at h
      · obtain ⟨rfl, rfl⟩ := Prod.mk.inj (Option.some.inj h)
        simp [text]
      · cases h
    · split at h <;> cases h <;> simp [text]

-- A lexeme takes away the first character at least, so the rest is no longer than what follows it.
theorem length_le_of_first? {c : Char} {cs rest : List Char} {l : Lexeme}
    (h : first? c cs = some (l, rest)) : rest.length ≤ cs.length := by
  have hlen := congrArg List.length (eq_append_of_first? h)
  have := List.length_pos_iff.2 (text_ne_empty_of_first? h)
  simp only [List.length_cons, List.length_append] at hlen
  omega

end Lexeme

namespace Token

open Lexeme

def scanFrom (pos : Nat) : List Char → List Token
  | [] => [⟨endOfInput, pos⟩]
  | c :: cs =>
    if isGap c then scanFrom (pos + 1) cs
    else
      match _h : first? c cs with
      | none => [⟨invalid c, pos⟩]
      | some (l, rest) => ⟨l, pos⟩ :: scanFrom (pos + l.text.length) rest
termination_by cs => cs.length
decreasing_by
  · simp
  · have := length_le_of_first? _h
    simp only [List.length_cons]
    omega

def scan (text : String) : List Token :=
  scanFrom 0 text.toList

end Token

-- Whether a text is one identifier from end to end, as a task name has to be.
def isName (s : String) : Bool :=
  !s.isEmpty && (Lexeme.nameRun s.toList).2.isEmpty

structure Nesting where
  level : Int
  deepest : Nat

def Nesting.step (n : Nesting) (t : Token) : Nesting :=
  if t.lexeme.opens then ⟨n.level + 1, max n.deepest (n.level + 1).toNat⟩
  else if t.lexeme.closes then ⟨n.level - 1, n.deepest⟩
  else n

-- The deepest level of brackets in a text. Brackets need not match.
def bracketDepth (text : String) : Nat :=
  ((Token.scan text).foldl Nesting.step ⟨0, 0⟩).deepest

end TaskFlow
