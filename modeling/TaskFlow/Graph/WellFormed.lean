import TaskFlow.Graph.Fault
import TaskFlow.Graph.Reach
import TaskFlow.Token.Lexer

namespace TaskFlow.Graph

open RenderFault

def secondOccurrence? (seen : List String) : List String → Option String
  | [] => none
  | id :: ids => if id ∈ seen then some id else secondOccurrence? (id :: seen) ids

def anchor (g : Graph) (type : NodeType) : Except RenderFault Node :=
  match g.nodesWith type with
  | [] => .error ⟨.noAnchor type, none⟩
  | [n] => .ok n
  | _ :: second :: rest => .error ⟨.manyAnchors type (rest.length + 2), some second.id⟩

def danglingEnd? (g : Graph) (l : Link) : Option RenderFault :=
  ([l.source, l.target].find? (!g.ids.contains ·)).map fun id =>
    ⟨.danglingLink l.source l.target, some id⟩

-- What is wrong with the name or the label of a task. `owners` holds the labels of the tasks before
-- it.
def nameFault? (owners : List (String × String)) (n : Node) : Option RenderFault :=
  if !(n.name.any isName) then some ⟨.invalidName n.name, some n.id⟩
  else
    match n.label with
    | none => none
    | some label =>
      if !isName label then some ⟨.invalidLabel label, some n.id⟩
      else (owners.lookup label).map fun owner => ⟨.labelTaken label owner, some n.id⟩

def namesFault? (owners : List (String × String)) : List Node → Option RenderFault
  | [] => none
  | n :: ns =>
    match nameFault? owners n with
    | some f => some f
    | none => namesFault? ((n.label.map fun label => (label, n.id)).toList ++ owners) ns

-- Whether a condition can be written between quotes.
def isWritable (condition : String) : Bool :=
  !condition.isEmpty && condition.toList.all Lexeme.isQuotable

def conditionsFault? (id : String) (seen : List String) : List String → Option RenderFault
  | [] => none
  | c :: cs =>
    if !isWritable c then some ⟨.invalidCondition c, some id⟩
    else if c ∈ seen then some ⟨.duplicateCondition c, some id⟩
    else conditionsFault? id (c :: seen) cs

def linksFault? (g : Graph) (n : Node) : Option RenderFault :=
  let links := g.outgoing n.id
  let conditions := links.filterMap (·.condition)
  if conditions.isEmpty then none
  else if n.type != .task then some ⟨.conditionWithoutTask, some n.id⟩
  else if conditions.length != links.length then some ⟨.mixedLinks, some n.id⟩
  else conditionsFault? n.id [] conditions

def missingFrom (g : Graph) (ids : List String) (cause : Cause) : Option RenderFault :=
  (g.ids.find? (!ids.contains ·)).map fun id => ⟨cause, some id⟩

-- Graphs come from outside, so each demand is checked, and the first one that is not met is named.
def anchors (g : Graph) : Except RenderFault (Node × Node) := do
  stopOn ((secondOccurrence? [] g.ids).map fun id => ⟨.duplicateId, some id⟩)
  let start ← g.anchor .start
  let finish ← g.anchor .finish
  stopOn (g.links.findSome? g.danglingEnd?)
  stopOn (if (g.incoming start.id).isEmpty then none else some ⟨.incomingAtStart, some start.id⟩)
  stopOn (if (g.outgoing finish.id).isEmpty then none else some ⟨.outgoingAtEnd, some finish.id⟩)
  let tasks := g.nodesWith .task
  stopOn (namesFault? [] tasks)
  stopOn (if tasks.isEmpty then some ⟨.noTasks, none⟩ else none)
  stopOn (if g.links.isEmpty then some ⟨.noLinks, none⟩ else none)
  stopOn (g.nodes.findSome? g.linksFault?)
  stopOn (g.missingFrom (g.reachableFrom start.id) .unreachable)
  stopOn (g.missingFrom (g.leadingTo finish.id) .deadEnd)
  pure (start, finish)

end TaskFlow.Graph
