import TaskFlow.Json.Lexer

namespace TaskFlow.Json

inductive Frame
  | array (items : List Json)
  -- An object, its complete fields, and the name of the field whose value comes next.
  | object (fields : List (String × Json)) (name : String)

inductive Awaiting
  | value
  | firstElement
  | name (fields : List (String × Json))
  | firstName
  | colon (fields : List (String × Json)) (name : String)
  | follower (value : Json)
  | nothing (document : Json)

structure State where
  awaiting : Awaiting
  frames : List Frame

namespace State

def takeValue (frames : List Frame) (p : Piece) : Except Fault State :=
  match p.word with
  | .openBrace => .ok ⟨.firstName, frames⟩
  | .openBracket => .ok ⟨.firstElement, frames⟩
  | .string s => .ok ⟨.follower (string s), frames⟩
  | .scalar v => .ok ⟨.follower v, frames⟩
  | .broken fault => .error fault
  | _ => .error ⟨.expectedValue, p.rest⟩

def takeName (fields : List (String × Json)) (frames : List Frame) (p : Piece) :
    Except Fault State :=
  match p.word with
  | .string s => .ok ⟨.colon fields s, frames⟩
  | .broken fault => .error fault
  | _ => .error ⟨.expectedName, p.rest⟩

def takeFollower (value : Json) (frames : List Frame) (p : Piece) : Except Fault State :=
  match frames, p.word with
  | [], .endOfText => .ok ⟨.nothing value, []⟩
  | [], _ => .error ⟨.extraData, p.rest⟩
  | .array items :: frames, .comma => .ok ⟨.value, .array (value :: items) :: frames⟩
  | .array items :: frames, .closeBracket =>
    .ok ⟨.follower (array (value :: items).reverse), frames⟩
  | .object fields name :: frames, .comma => .ok ⟨.name (put fields name value), frames⟩
  | .object fields name :: frames, .closeBrace =>
    .ok ⟨.follower (object (put fields name value)), frames⟩
  | _, _ => .error ⟨.expectedComma, p.rest⟩

def step (s : State) (p : Piece) : Except Fault State :=
  match s.awaiting with
  | .value => takeValue s.frames p
  | .firstElement =>
    match p.word with
    | .closeBracket => .ok ⟨.follower (array []), s.frames⟩
    | _ => takeValue (.array [] :: s.frames) p
  | .name fields => takeName fields s.frames p
  | .firstName =>
    match p.word with
    | .closeBrace => .ok ⟨.follower (object []), s.frames⟩
    | _ => takeName [] s.frames p
  | .colon fields name =>
    match p.word with
    | .colon => .ok ⟨.value, .object fields name :: s.frames⟩
    | _ => .error ⟨.expectedColon, p.rest⟩
  | .follower value => takeFollower value s.frames p
  | .nothing _ => .ok s

def document? (s : State) : Except Fault Json :=
  match s.awaiting with
  | .nothing document => .ok document
  | _ => .error ⟨.expectedValue, []⟩

end State

-- Reads the one document of a text. A byte order mark is refused.
def read (text : String) : Except Fault Json :=
  let cs := text.toList
  if cs.head? = some '\ufeff' then .error ⟨.byteOrderMark, cs⟩
  else do
    let s ← (words cs).foldlM State.step ⟨.value, []⟩
    s.document?

def Cause.message : Cause → String
  | .byteOrderMark => "Unexpected UTF-8 BOM (decode using utf-8-sig)"
  | .expectedValue => "Expecting value"
  | .expectedName => "Expecting property name enclosed in double quotes"
  | .expectedColon => "Expecting ':' delimiter"
  | .expectedComma => "Expecting ',' delimiter"
  | .unterminatedString => "Unterminated string starting at"
  | .controlCharacter => "Invalid control character at"
  | .escape => "Invalid \\escape"
  | .unicodeEscape => "Invalid \\uXXXX escape"
  | .extraData => "Extra data"

-- The message with the line, the column and the offset in the text it is about. Lines and columns
-- are counted from one.
def Fault.inText (f : Fault) (text : String) : String :=
  let offset := text.length - f.rest.length
  let before := text.toList.take offset
  let line := before.count '\n' + 1
  let column := (before.reverse.takeWhile (· != '\n')).length + 1
  f.cause.message ++ ": line " ++ toString line ++ " column " ++ toString column
    ++ " (char " ++ toString offset ++ ")"

end TaskFlow.Json
