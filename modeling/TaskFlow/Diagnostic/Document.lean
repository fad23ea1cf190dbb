import TaskFlow.Diagnostic
import TaskFlow.Document.Integer
import TaskFlow.Graph.Document

namespace TaskFlow

open Checked

namespace Diagnostic

def toJson (d : Diagnostic) : Json :=
  .object [
    ("kind", .string d.kind),
    ("message", .string d.message),
    ("offset", d.offset.elim .null .int),
    ("name", .ofText? d.name),
    ("node", .ofText? d.node)]

def checkOffset : Json → Checked (Option Int)
  | .null => .ok none
  | j => some <$> Integer.check j

def check : Json → Checked Diagnostic :=
  model "ErrorDescriptor" fun fields =>
    Diagnostic.mk
      <$> required fields "kind" string
      <*> required fields "message" string
      <*> optional fields "offset" none checkOffset
      <*> optional fields "name" none text?
      <*> optional fields "node" none text?

end Diagnostic

abbrev Outcome (α : Type) := Except Diagnostic α

namespace Outcome

def nullable (check : Json → Checked α) : Json → Checked (Option α)
  | .null => .ok none
  | j => some <$> check j

-- Exactly one of a diagnostic and a value.
def eitherOf (model value : String) : Option Diagnostic → Option α → Checked (Outcome α)
  | some d, none => .ok (.error d)
  | none, some a => .ok (.ok a)
  | _, _ => fail (.notExactlyOne model value)

def check (name value : String) (checkValue : Json → Checked α) : Json → Checked (Outcome α) :=
  model name fun fields =>
    (Prod.mk <$> optional fields "error" none (nullable Diagnostic.check)
        <*> optional fields value none (nullable checkValue)).andThen
      fun (error, value?) => eitherOf name value error value?

def toJson (value : String) (encode : α → Json) : Outcome α → Json
  | .ok a => .object [(value, encode a)]
  | .error d => .object [("error", d.toJson)]

def checkText : Json → Checked (Outcome String) :=
  check "TextResult" "text" string

def checkGraph : Json → Checked (Outcome Graph) :=
  check "GraphResult" "graph" Graph.check

def textToJson : Outcome String → Json :=
  toJson "text" .string

def graphToJson : Outcome Graph → Json :=
  toJson "graph" Graph.toJson

end Outcome

end TaskFlow
