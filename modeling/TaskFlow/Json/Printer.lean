import TaskFlow.Decimal.Shortest
import TaskFlow.Json
import TaskFlow.Text.Quoted

namespace TaskFlow.Json

def unitEscape (n : Nat) : List Char :=
  '\\' :: 'u' :: Text.hex 4 n

-- A character between double quotes. Characters beyond the basic plane take two escapes.
def charText (c : Char) : List Char :=
  match c with
  | '"' => ['\\', '"']
  | '\\' => ['\\', '\\']
  | '\n' => ['\\', 'n']
  | '\r' => ['\\', 'r']
  | '\t' => ['\\', 't']
  | '\x08' => ['\\', 'b']
  | '\x0c' => ['\\', 'f']
  | c =>
    let n := c.toNat
    if 0x20 ≤ n && n < 0x7f then [c]
    else if n < 0x10000 then unitEscape n
    else unitEscape (0xd800 + (n - 0x10000) / 0x400) ++ unitEscape (0xdc00 + (n - 0x10000) % 0x400)

def stringText (s : String) : String :=
  String.ofList ('"' :: s.toList.flatMap charText ++ ['"'])

def floatText (x : Float) : String :=
  if x.isNaN then "NaN"
  else if x.isInf then if x < 0 then "-Infinity" else "Infinity"
  else Decimal.floatText x

-- How the parts of a container are set: what stands behind an opening bracket, between two parts
-- and before the closing bracket, and what follows a colon.
structure Setting where
  opening : Nat → String
  between : Nat → String
  closing : Nat → String
  colon : String

def newline (level : Nat) : String :=
  String.ofList ('\n' :: List.replicate (2 * level) ' ')

def compact : Setting := ⟨fun _ => "", fun _ => ",", fun _ => "", ":"⟩

def indented : Setting :=
  ⟨fun level => newline (level + 1), fun level => "," ++ newline (level + 1), newline, ": "⟩

mutual

-- The text of a document that stands `level` containers deep.
def text (s : Setting) (level : Nat) : Json → String
  | null => "null"
  | bool b => if b then "true" else "false"
  | int n => toString n
  | float x => floatText x
  | string t => stringText t
  | array [] => "[]"
  | array (item :: items) =>
    "[" ++ s.opening level ++ text s (level + 1) item ++ itemsText s level items
      ++ s.closing level ++ "]"
  | object [] => "\x7b\x7d"
  | object ((name, value) :: fields) =>
    "\x7b" ++ s.opening level ++ stringText name ++ s.colon ++ text s (level + 1) value
      ++ fieldsText s level fields ++ s.closing level ++ "\x7d"

def itemsText (s : Setting) (level : Nat) : List Json → String
  | [] => ""
  | item :: items => s.between level ++ text s (level + 1) item ++ itemsText s level items

def fieldsText (s : Setting) (level : Nat) : List (String × Json) → String
  | [] => ""
  | (name, value) :: fields =>
    s.between level ++ stringText name ++ s.colon ++ text s (level + 1) value
      ++ fieldsText s level fields

end

def render (j : Json) : String :=
  j.text compact 0

def pretty (j : Json) : String :=
  j.text indented 0

end TaskFlow.Json
