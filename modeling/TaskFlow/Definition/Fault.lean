import TaskFlow.Token

namespace TaskFlow

namespace ReadFault

inductive Expectation
  | element
  | endOfStep
  | endOfBranch
  | endOfGroup
  | taskAfterLabel (label : String)
deriving DecidableEq, Repr

inductive Cause
  | empty
  | invalidCharacter (c : Char)
  | unexpected (expected : Expectation) (found : Lexeme)
  | barsOutsideSplit
  | unopened (closer : Lexeme)
  | unclosed (opening : Token) (found : Lexeme)
  | noStatus (found : Lexeme)
  | emptyPattern
  | noColon (pattern : String) (found : Lexeme)
  | noTarget (pattern : String) (found : Lexeme)
  | afterCatchAll (pattern : String) (catchAll : Nat)
  | duplicateTransition (task pattern : String)
  | duplicateLabel (label : String) (first : Nat)
  | tooDeep (opening : Lexeme) (level : Nat) (limit : Int)
  | tooLong (length limit : Nat)
deriving DecidableEq, Repr

inductive Kind
  | emptyDefinition
  | unexpectedToken
  | invalidCharacter
  | unbalancedDelimiter
  | malformedTransition
  | duplicateLabel
  | ambiguousTransitionOrder
  | duplicateTransition
  | definitionTooLong
  | nestingTooDeep
deriving DecidableEq, Repr

namespace Kind

def name : Kind → String
  | emptyDefinition => "empty-definition"
  | unexpectedToken => "unexpected-token"
  | invalidCharacter => "invalid-character"
  | unbalancedDelimiter => "unbalanced-delimiter"
  | malformedTransition => "malformed-transition"
  | duplicateLabel => "duplicate-label"
  | ambiguousTransitionOrder => "ambiguous-transition-order"
  | duplicateTransition => "duplicate-transition"
  | definitionTooLong => "definition-too-long"
  | nestingTooDeep => "nesting-too-deep"

def all : List Kind := [
  emptyDefinition, unexpectedToken, invalidCharacter, unbalancedDelimiter, malformedTransition,
  duplicateLabel, ambiguousTransitionOrder, duplicateTransition, definitionTooLong, nestingTooDeep]

def ofName? (name : String) : Option Kind :=
  all.find? (·.name == name)

end Kind

def Expectation.text : Expectation → String
  | element => "a task name, '<' or '('"
  | endOfStep => "'&&' or end of input"
  | endOfBranch => "'&&', '||' or '>'"
  | endOfGroup => "'&&' or ')'"
  | taskAfterLabel label => "a task name after label '" ++ label ++ ":'"

namespace Cause

def kind : Cause → Kind
  | empty => .emptyDefinition
  | invalidCharacter _ => .invalidCharacter
  | unexpected .. | barsOutsideSplit => .unexpectedToken
  | unopened _ | unclosed .. => .unbalancedDelimiter
  | noStatus _ | emptyPattern | noColon .. | noTarget .. => .malformedTransition
  | afterCatchAll .. => .ambiguousTransitionOrder
  | duplicateTransition .. => .duplicateTransition
  | duplicateLabel .. => .duplicateLabel
  | tooDeep .. => .nestingTooDeep
  | tooLong .. => .definitionTooLong

def message : Cause → String
  | empty => "composed task definition is empty"
  | invalidCharacter c => "unexpected character " ++ Text.quoted (String.singleton c)
  | unexpected expected found => "expected " ++ expected.text ++ " but found " ++ found.wording
  | barsOutsideSplit => "'||' is only allowed between the branches of a split"
  | unopened closer => closer.wording ++ " has no matching opening delimiter"
  | unclosed opening found =>
    opening.lexeme.wording ++ " at offset " ++ toString opening.start ++ " is not closed, found "
      ++ found.wording
  | noStatus found => "expected a status pattern after '->' but found " ++ found.wording
  | emptyPattern => "status pattern must not be empty"
  | noColon pattern found =>
    "expected ':' after status pattern '" ++ pattern ++ "' but found " ++ found.wording
  | noTarget pattern found =>
    "expected a target after '" ++ pattern ++ ":' but found " ++ found.wording
  | afterCatchAll pattern catchAll =>
    "transition on '" ++ pattern ++ "' follows the catch-all '*' at offset " ++ toString catchAll
  | duplicateTransition task pattern =>
    "task '" ++ task ++ "' already has a transition on '" ++ pattern ++ "'"
  | duplicateLabel label first =>
    "label '" ++ label ++ "' is already used at offset " ++ toString first
  | tooDeep opening level limit =>
    opening.wording ++ " opens nesting level " ++ toString level ++ ", the limit is "
      ++ toString limit
  | tooLong length limit =>
    "definition is " ++ toString length ++ " characters, the limit is " ++ toString limit

end Cause

end ReadFault

structure ReadFault where
  cause : ReadFault.Cause
  offset : Nat
deriving DecidableEq, Repr

end TaskFlow
