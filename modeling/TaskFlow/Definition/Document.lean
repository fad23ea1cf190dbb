import TaskFlow.Definition.Layout
import TaskFlow.Json

namespace TaskFlow

inductive OutlineFault
  | layout (fault : LayoutFault)
  | bareText
deriving DecidableEq, Repr

namespace TaskMention

def toJson (t : TaskMention) : Json :=
  .object [
    ("task", .string t.name),
    ("label", .ofText? t.label),
    ("offset", .int t.offset)]

def ofFields (fields : List (String × Json)) : TaskMention where
  name := (fields.lookup "task").elim "" fun
    | .string s => s
    | _ => ""
  label := (fields.lookup "label").bind fun
    | .string s => some s
    | _ => none
  offset := (fields.lookup "offset").elim 0 fun
    | .int n => n.toNat
    | _ => 0

def ofFields? (fields : List (String × Json)) : Except OutlineFault TaskMention :=
  let t := ofFields fields
  if t.name.isEmpty then .error (.layout .emptyId) else .ok t

end TaskMention

namespace Definition

mutual

def toJson : Definition → Json
  | task mention => mention.toJson
  | sequence steps => .object [("seq", .array (allToJson steps))]
  | split branches => .object [("split", .array (allToJson branches))]
  | transition source clauses =>
    .object [("transition", source.toJson), ("conditions", .array (clausesToJson clauses))]

def allToJson : List Definition → List Json
  | [] => []
  | d :: ds => d.toJson :: allToJson ds

def clausesToJson : List (Option String × Definition) → List Json
  | [] => []
  | (pattern, target) :: clauses =>
    .object [
      ("pattern", .ofText? pattern),
      ("wildcard", .bool (pattern == some wildcard)),
      ("target", target.toJson)] :: clausesToJson clauses

end

structure Parts where
  steps : Option (Except OutlineFault (List Definition)) := none
  branches : Option (Except OutlineFault (List Definition)) := none
  clauses : Option (Except OutlineFault (List Clause)) := none

-- A definition is refused at its first part, from left to right, that has no graph. The source of a
-- transition comes before its clauses.
def ofParts (fields : List (String × Json)) (parts : Parts) : Except OutlineFault Definition :=
  match parts.steps, parts.branches, fields.lookup "transition" with
  | some steps, _, _ => do
    let steps ← steps
    if steps.isEmpty then throw (.layout .emptySequence)
    pure (sequence steps)
  | _, some branches, _ => split <$> branches
  | _, _, some (.object source) => do
    let source ← TaskMention.ofFields? source
    let clauses ← parts.clauses.getD (pure [])
    pure (transition source clauses)
  | _, _, _ => task <$> TaskMention.ofFields? fields

mutual

def ofJson : Json → Except OutlineFault Definition
  | .object fields => ofParts fields (partsOf fields)
  | _ => throw .bareText

def partsOf : List (String × Json) → Parts
  | [] => { }
  | (name, .array items) :: fields =>
    let parts := partsOf fields
    match name with
    | "seq" => { parts with steps := some (allOfJson items) }
    | "split" => { parts with branches := some (allOfJson items) }
    | "conditions" => { parts with clauses := some (clausesOfJson items) }
    | _ => parts
  | _ :: fields => partsOf fields

def allOfJson : List Json → Except OutlineFault (List Definition)
  | [] => pure []
  | item :: items => do
    let d ← ofJson item
    let ds ← allOfJson items
    pure (d :: ds)

def clausesOfJson : List Json → Except OutlineFault (List Clause)
  | [] => pure []
  | .object fields :: items => do
    let pattern := (fields.lookup "pattern").bind fun
      | .string s => some s
      | _ => none
    let target ← targetOf fields
    let clauses ← clausesOfJson items
    pure ((pattern, target) :: clauses)
  | _ :: items => clausesOfJson items

def targetOf : List (String × Json) → Except OutlineFault Definition
  | [] => throw .bareText
  | ("target", target) :: _ => ofJson target
  | _ :: fields => targetOf fields

end

end Definition

end TaskFlow
