import TaskFlow.Json

namespace TaskFlow

namespace DocumentFault

inductive Key
  | field (name : String)
  | index (i : Nat)
deriving DecidableEq, Repr

inductive Cause
  | notModel (model : String)
  | missing
  | notList
  | notDictionary
  | notString
  | emptyString
  | notOneOf (names : List String)
  | notInteger
  | unreadableInteger
  | fraction
  | notFinite
  | hugeInteger
  | notGreater (bound : Int)
  | notAtMost (bound : Int)
  | notBoolean
  | unreadableBoolean
  | notExactlyOne (model value : String)
deriving DecidableEq, Repr

def Key.text : Key → String
  | field name => name
  | index i => toString i

def alternatives : List String → String
  | [] => ""
  | [name] => "'" ++ name ++ "'"
  | [name, last] => "'" ++ name ++ "' or '" ++ last ++ "'"
  | name :: rest => "'" ++ name ++ "', " ++ alternatives rest

namespace Cause

def code : Cause → String
  | notModel _ => "model_type"
  | missing => "missing"
  | notList => "list_type"
  | notDictionary => "dict_type"
  | notString => "string_type"
  | emptyString => "string_too_short"
  | notOneOf _ => "enum"
  | notInteger => "int_type"
  | unreadableInteger => "int_parsing"
  | fraction => "int_from_float"
  | notFinite => "finite_number"
  | hugeInteger => "int_parsing_size"
  | notGreater _ => "greater_than"
  | notAtMost _ => "less_than_equal"
  | notBoolean => "bool_type"
  | unreadableBoolean => "bool_parsing"
  | notExactlyOne .. => "value_error"

def message : Cause → String
  | notModel model => "Input should be a valid dictionary or instance of " ++ model
  | missing => "Field required"
  | notList => "Input should be a valid list"
  | notDictionary => "Input should be a valid dictionary"
  | notString => "Input should be a valid string"
  | emptyString => "String should have at least 1 character"
  | notOneOf names => "Input should be " ++ alternatives names
  | notInteger => "Input should be a valid integer"
  | unreadableInteger => "Input should be a valid integer, unable to parse string as an integer"
  | fraction => "Input should be a valid integer, got a number with a fractional part"
  | notFinite => "Input should be a finite number"
  | hugeInteger => "Unable to parse input string as an integer, exceeded maximum size"
  | notGreater bound => "Input should be greater than " ++ toString bound
  | notAtMost bound => "Input should be less than or equal to " ++ toString bound
  | notBoolean => "Input should be a valid boolean"
  | unreadableBoolean => "Input should be a valid boolean, unable to interpret input"
  | notExactlyOne model value =>
    "Value error, " ++ model ++ " needs exactly one of " ++ value ++ " or error"

end Cause

end DocumentFault

structure DocumentFault where
  path : List DocumentFault.Key
  cause : DocumentFault.Cause
deriving DecidableEq, Repr

-- The path with points between its steps. The whole document is called by its own name.
def DocumentFault.place (f : DocumentFault) (whole : String) : String :=
  let path := ".".intercalate (f.path.map (·.text))
  if path.isEmpty then whole else path

-- A value, or all faults in the order of the document's form, each with the path to it.
inductive Checked (α : Type)
  | ok (value : α)
  | faulty (first : DocumentFault) (rest : List DocumentFault)
deriving Repr

namespace Checked

open DocumentFault

def map (f : α → β) : Checked α → Checked β
  | ok a => ok (f a)
  | faulty first rest => faulty first rest

-- Applies a checked function to a checked value. The faults of both are kept.
def apply : Checked (α → β) → Checked α → Checked β
  | ok f, ok a => ok (f a)
  | ok _, faulty first rest => faulty first rest
  | faulty first rest, ok _ => faulty first rest
  | faulty first rest, faulty first' rest' => faulty first (rest ++ first' :: rest')

instance : Applicative Checked where
  pure := ok
  map := map
  seq f a := apply f (a ())

-- Checks a value further. Faults that are there already rule the further check out.
def andThen (c : Checked α) (check : α → Checked β) : Checked β :=
  match c with
  | ok a => check a
  | faulty first rest => faulty first rest

def fail (cause : Cause) : Checked α :=
  faulty ⟨[], cause⟩ []

def within (key : Key) : Checked α → Checked α
  | ok a => ok a
  | faulty first rest =>
    faulty { first with path := key :: first.path }
      (rest.map fun f => { f with path := key :: f.path })

def faults : Checked α → List DocumentFault
  | ok _ => []
  | faulty first rest => first :: rest

@[simp] theorem map_ok (f : α → β) (a : α) : f <$> ok a = ok (f a) := rfl

@[simp] theorem seq_ok (f : α → β) (a : α) : ok f <*> ok a = ok (f a) := rfl

@[simp] theorem within_ok (key : Key) (a : α) : within key (ok a) = ok a := rfl

def each (check : Json → Checked α) : (first : Nat) → List Json → Checked (List α)
  | _, [] => ok []
  | i, item :: items => List.cons <$> within (.index i) (check item) <*> each check (i + 1) items

def eachField (check : Json → Checked α) : List (String × Json) → Checked (List (String × α))
  | [] => ok []
  | (name, value) :: fields =>
    (fun value fields => (name, value) :: fields)
      <$> within (.field name) (check value) <*> eachField check fields

def required (fields : List (String × Json)) (name : String) (check : Json → Checked α) :
    Checked α :=
  within (.field name) <|
    match fields.lookup name with
    | none => fail .missing
    | some value => check value

def optional (fields : List (String × Json)) (name : String) (default : α)
    (check : Json → Checked α) : Checked α :=
  match fields.lookup name with
  | none => ok default
  | some value => within (.field name) (check value)

def model (name : String) (check : List (String × Json) → Checked α) : Json → Checked α
  | .object fields => check fields
  | _ => fail (.notModel name)

def string : Json → Checked String
  | .string s => ok s
  | _ => fail .notString

def text? : Json → Checked (Option String)
  | .null => ok none
  | j => some <$> string j

def list (check : Json → Checked α) : Json → Checked (List α)
  | .array items => each check 0 items
  | _ => fail .notList

def dictionary (check : Json → Checked α) : Json → Checked (List (String × α))
  | .object fields => eachField check fields
  | _ => fail .notDictionary

end Checked

end TaskFlow
