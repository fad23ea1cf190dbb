import TaskFlow.Decimal.Shortest
import TaskFlow.Json
import TaskFlow.Text.Quoted

namespace TaskFlow.Json

mutual

-- Texts are quoted inside another value only.
def displayInside : Json → String
  | null => "None"
  | bool b => if b then "True" else "False"
  | int n => toString n
  | float x => Decimal.floatText x
  | string s => Text.quoted s
  | array items => "[" ++ ", ".intercalate (displayItems items) ++ "]"
  | object fields => "\x7b" ++ ", ".intercalate (displayFields fields) ++ "\x7d"

def displayItems : List Json → List String
  | [] => []
  | item :: items => displayInside item :: displayItems items

def displayFields : List (String × Json) → List String
  | [] => []
  | (name, value) :: fields =>
    (Text.quoted name ++ ": " ++ displayInside value) :: displayFields fields

end

def display : Json → String
  | string s => s
  | j => j.displayInside

-- The text of a field: none if it is null or not there, and the display of any other value.
def textOf (fields : List (String × Json)) (name : String) : Option String :=
  match fields.lookup name with
  | none | some null => none
  | some j => some j.display

end TaskFlow.Json
