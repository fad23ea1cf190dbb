namespace TaskFlow

inductive Json
  | null
  | bool (b : Bool)
  | int (n : Int)
  | float (x : Float)
  | string (s : String)
  | array (items : List Json)
  | object (fields : List (String × Json))
deriving Inhabited

namespace Json

-- Sets a field: in its place if the name is there already, otherwise behind the others.
def put (fields : List (String × Json)) (name : String) (value : Json) : List (String × Json) :=
  match fields with
  | [] => [(name, value)]
  | field :: rest =>
    if field.1 == name then (name, value) :: rest else field :: put rest name value

def field? (name : String) : Json → Option Json
  | object fields => fields.lookup name
  | _ => none

def ofText? : Option String → Json
  | none => null
  | some s => string s

end Json

end TaskFlow
