import TaskFlow.Document.Checked
import TaskFlow.Graph

namespace TaskFlow

open Checked

namespace Node

def toJson (n : Node) : Json :=
  .object [
    ("id", .string n.id),
    ("type", .string n.type.name),
    ("name", .ofText? n.name),
    ("properties", .object (n.properties.map fun (key, value) => (key, .string value)))]

def checkId (j : Json) : Checked String :=
  (string j).andThen fun s => if s.isEmpty then fail .emptyString else .ok s

def checkType (j : Json) : Checked NodeType :=
  match j with
  | .string s =>
    match NodeType.ofName? s with
    | some type => .ok type
    | none => fail (.notOneOf (NodeType.all.map (·.name)))
  | _ => fail (.notOneOf (NodeType.all.map (·.name)))

def check : Json → Checked Node :=
  model "Node" fun fields =>
    Node.mk
      <$> required fields "id" checkId
      <*> required fields "type" checkType
      <*> optional fields "name" none text?
      <*> optional fields "properties" [] (dictionary string)

end Node

namespace Link

def toJson (l : Link) : Json :=
  .object [
    ("from", .string l.source),
    ("to", .string l.target),
    ("condition", .ofText? l.condition)]

-- Writing gives every field. Reading accepts more: fields may be left out that have a default,
-- unknown fields are ignored, and a link may name its source in either of two ways.
def sourceField (fields : List (String × Json)) : String :=
  if (fields.lookup "from").isNone && (fields.lookup "from_").isSome then "from_" else "from"

def check : Json → Checked Link :=
  model "Link" fun fields =>
    Link.mk
      <$> required fields (sourceField fields) string
      <*> required fields "to" string
      <*> optional fields "condition" none text?

end Link

namespace Graph

def toJson (g : Graph) : Json :=
  .object [
    ("nodes", .array (g.nodes.map Node.toJson)),
    ("links", .array (g.links.map Link.toJson))]

def check : Json → Checked Graph :=
  model "Graph" fun fields =>
    Graph.mk
      <$> optional fields "nodes" [] (list Node.check)
      <*> optional fields "links" [] (list Link.check)

end Graph

end TaskFlow
