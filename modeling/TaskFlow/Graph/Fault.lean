import TaskFlow.Diagnostic
import TaskFlow.Document.Checked
import TaskFlow.Graph

namespace TaskFlow

namespace RenderFault

inductive Cause
  | invalidDocument (fault : DocumentFault)
  | duplicateId
  | noAnchor (type : NodeType)
  | manyAnchors (type : NodeType) (count : Nat)
  | danglingLink (source target : String)
  | incomingAtStart
  | outgoingAtEnd
  | invalidName (name : Option String)
  | invalidLabel (label : String)
  | labelTaken (label owner : String)
  | noTasks
  | noLinks
  | conditionWithoutTask
  | mixedLinks
  | invalidCondition (condition : String)
  | duplicateCondition (condition : String)
  | unreachable
  | deadEnd
  | revisited
  | regionsTooDeep (limit : Int)
  | transitionsTooDeep (limit : Int)
  | endsInside
  | noTarget (condition : String)
  | unfinishedTransition
  | emptyBranch
  | straightToJoin (condition : String)
  | unvisited
  | textTooDeep (depth : Nat) (limit : Int)
deriving DecidableEq, Repr

inductive Kind
  | malformedGraph
  | missingAnchor
  | danglingLink
  | disconnectedGraph
  | unreachableNode
  | conflictingOutgoingLinks
  | unrenderableStructure
deriving DecidableEq, Repr

namespace Kind

def name : Kind → String
  | malformedGraph => "malformed-graph"
  | missingAnchor => "missing-anchor"
  | danglingLink => "dangling-link"
  | disconnectedGraph => "disconnected-graph"
  | unreachableNode => "unreachable-node"
  | conflictingOutgoingLinks => "conflicting-outgoing-links"
  | unrenderableStructure => "unrenderable-structure"

def all : List Kind := [
  malformedGraph, missingAnchor, danglingLink, disconnectedGraph, unreachableNode,
  conflictingOutgoingLinks, unrenderableStructure]

def ofName? (name : String) : Option Kind :=
  all.find? (·.name == name)

end Kind

namespace Cause

def kind : Cause → Kind
  | invalidDocument _ | duplicateId | invalidName _ | invalidLabel _ | labelTaken ..
  | conditionWithoutTask | invalidCondition _ => .malformedGraph
  | noAnchor _ | manyAnchors .. | incomingAtStart | outgoingAtEnd => .missingAnchor
  | danglingLink .. => .danglingLink
  | noTasks | noLinks | deadEnd => .disconnectedGraph
  | unreachable => .unreachableNode
  | mixedLinks | duplicateCondition _ => .conflictingOutgoingLinks
  | revisited | regionsTooDeep _ | transitionsTooDeep _ | endsInside | noTarget _
  | unfinishedTransition | emptyBranch | straightToJoin _ | unvisited | textTooDeep .. =>
    .unrenderableStructure

def reason : Cause → String
  | invalidDocument fault =>
    "invalid graph at " ++ fault.place "graph" ++ ": " ++ fault.cause.message
  | duplicateId => "duplicate node id"
  | noAnchor type => "graph has no " ++ type.name ++ " node"
  | manyAnchors type count => "graph has " ++ toString count ++ " " ++ type.name ++ " nodes"
  | danglingLink source target =>
    "link " ++ source ++ " -> " ++ target ++ " references an unknown node"
  | incomingAtStart => "START node has incoming links"
  | outgoingAtEnd => "END node has outgoing links"
  | invalidName name => "task name " ++ Text.quotedOrNone name ++ " is not a valid identifier"
  | invalidLabel label => "label " ++ Text.quoted label ++ " is not a valid identifier"
  | labelTaken label owner => "label '" ++ label ++ "' is already used by node '" ++ owner ++ "'"
  | noTasks => "graph contains no tasks"
  | noLinks => "graph has tasks but no links"
  | conditionWithoutTask => "only tasks may have conditional links"
  | mixedLinks => "task has both conditional and unconditional links"
  | invalidCondition condition => "invalid condition " ++ Text.quoted condition
  | duplicateCondition condition => "more than one link for status '" ++ condition ++ "'"
  | unreachable => "node is not reachable from START"
  | deadEnd => "node has no path to END"
  | revisited => "node is reached more than once (cycle or shared step)"
  | regionsTooDeep limit => "regions nest deeper than " ++ toString limit ++ " levels"
  | transitionsTooDeep limit => "transitions nest deeper than " ++ toString limit ++ " levels"
  | endsInside => "branch reaches END before its enclosing region closes"
  | noTarget condition => "transition on '" ++ condition ++ "' has no target task"
  | unfinishedTransition => "transition has no target task"
  | emptyBranch => "split has an empty branch"
  | straightToJoin condition =>
    "transition on '" ++ condition ++ "' leads straight to where the branches reconverge"
  | unvisited => "node is not part of any renderable region"
  | textTooDeep depth limit =>
    "definition would nest " ++ toString depth ++ " levels deep, the limit is " ++ toString limit

end Cause

end RenderFault

structure RenderFault where
  cause : RenderFault.Cause
  node : Option String := none
deriving DecidableEq, Repr

namespace RenderFault

def diagnostic (f : RenderFault) : Diagnostic where
  kind := f.cause.kind.name
  message := f.cause.reason
  node := f.node

def stopOn : Option RenderFault → Except RenderFault Unit
  | none => .ok ()
  | some f => .error f

end RenderFault

end TaskFlow
