import TaskFlow.Document.Checked
import TaskFlow.Text.Blank

namespace TaskFlow.Integer

-- Drops what stands in front of the first digit that counts: zeros, and low lines among them.
-- `last` is the character before. Where no digit follows, at a point or at the end, it is kept.
def dropZerosAfter (last : Char) : List Char → List Char
  | [] => [last]
  | c :: cs =>
    if c = '0' || c = '_' then dropZerosAfter c cs
    else if c = '.' then last :: c :: cs
    else c :: cs

-- Drops leading zeros. They may stand in front of a minus sign too.
def dropZeros : List Char → List Char
  | '0' :: cs => dropZerosAfter '0' cs
  | cs => cs

-- What stands before a decimal point, if only zeros and at least one stand behind it.
def dropZeroFraction (cs : List Char) : List Char :=
  let (whole, fraction) := (cs.takeWhile (· != '.'), cs.dropWhile (· != '.'))
  match fraction with
  | '.' :: '0' :: zeros => if zeros.all (· == '0') then whole else cs
  | _ => cs

-- Drops low lines. Each one has to stand alone between two other characters.
def joinGroups? (cs : List Char) : Option (List Char) :=
  if cs.head? = some '_' || cs.getLast? = some '_' || (cs.zip cs.tail).contains ('_', '_') then none
  else some (cs.filter (· != '_'))

def clean? (cs : List Char) : Option (List Char) :=
  joinGroups? (dropZeroFraction (dropZeros cs))

-- The plain form of a number. A plus sign is dropped unless a minus sign follows it at once.
def plainForm? : List Char → Option (List Char)
  | '+' :: '-' :: _ => none
  | '+' :: cs => clean? cs
  | '-' :: cs => (clean? cs).map ('-' :: ·)
  | cs => clean? cs

def isPlain (digits : List Char) : Bool :=
  !digits.isEmpty && digits.all Char.isDigit && (digits.head? != some '0' || digits.length == 1)

def maxDigits : Nat := 4300

-- Reads digits in front of which a sign may have stood.
def ofDigits (sign : Int) (digits : List Char) : Checked Int :=
  if !isPlain digits then .fail .unreadableInteger
  else if maxDigits < digits.length then .fail .hugeInteger
  else .ok (sign * Nat.ofDigitChars 10 digits 0)

-- An optional sign, digits, and perhaps a fraction of zeros. The text is brought into plain form
-- first, so leading zeros and low lines between digits do no harm.
def ofText (s : String) : Checked Int :=
  match plainForm? (Text.trimBoth Text.isSpace s.toList) with
  | none => .fail .unreadableInteger
  | some ('-' :: digits) => ofDigits (-1) digits
  | some digits => ofDigits 1 digits

-- The number must be whole and fit into 64 bits.
def ofFloat (x : Float) : Checked Int :=
  if !x.isFinite then .fail .notFinite
  else if x.floor != x then .fail .fraction
  else if -9223372036854775808.0 < x && x < 9223372036854775808.0 then .ok x.toInt64.toInt
  else .fail .hugeInteger

def check : Json → Checked Int
  | .int n => .ok n
  | .bool b => .ok (if b then 1 else 0)
  | .float x => ofFloat x
  | .string s => ofText s
  | _ => .fail .notInteger

def checkWithin (above : Int) (atMost : Option Int) (j : Json) : Checked Int :=
  (check j).andThen fun n =>
    if n ≤ above then .fail (.notGreater above)
    else
      match atMost with
      | some bound => if bound < n then .fail (.notAtMost bound) else .ok n
      | none => .ok n

end TaskFlow.Integer
