import TaskFlow.Proofs.Definition.Structure
import TaskFlow.Token

namespace TaskFlow

-- The pattern that a status denotes. Other lexemes are no status.
def Lexeme.pattern? : Lexeme → Option String
  | identifier p | quoted p => some p
  | star => some wildcard
  | _ => none

inductive Phrase
  | sequence
  | element
  | split
  | group
  | transition
  | target
  | labeledTask
deriving DecidableEq

namespace Phrase

-- The phrases that a phrase may consist of alone.
def alternatives : Phrase → List Phrase
  | element => [split, group, transition]
  | target => [labeledTask, split, group]
  | _ => []

-- The lexemes behind a phrase with which it would go on.
def extensions : Phrase → List Lexeme
  | sequence => [.ampersands, .arrow, .colon]
  | element | transition => [.arrow, .colon]
  | target | labeledTask => [.colon]
  | split | group => []

def EndsBefore (n : Phrase) (rest : List Lexeme) : Prop :=
  ∀ l ∈ rest.head?, l ∉ n.extensions

end Phrase

inductive LabeledTask : List Lexeme → TaskMention → Prop
  | plain (name) : LabeledTask [.identifier name] { name }
  | labeled (label name) :
    LabeledTask [.identifier label, .colon, .identifier name] { name, label := some label }

-- A clause as it is spelled: its status, and its target with the lexemes that spell it.
structure Arm where
  status : Lexeme
  lexemes : List Lexeme
  target : Definition

namespace Arm

def spelling (a : Arm) : List Lexeme :=
  .arrow :: a.status :: .colon :: a.lexemes

def clause (a : Arm) : Clause :=
  (a.status.pattern?, a.target)

end Arm

def Definition.ofClauses (t : TaskMention) : List Clause → Definition
  | [] => .task t
  | cs => .transition t cs

-- A phrase of the grammar, the lexemes that spell it, and the definition that it denotes:
--
--   sequence     := element ('&&' element)*
--   element      := split | group | transition
--   split        := '<' sequence ('||' sequence)* '>'
--   group        := '(' sequence ')'
--   transition   := labeled-task ('->' status ':' target)*
--   target       := labeled-task | split | group
--   status       := identifier | '*' | quoted
--   labeled-task := (identifier ':')? identifier
inductive Derives : Phrase → List Lexeme → Definition → Prop
  | sequence {ps : List (List Lexeme × Definition)} :
    ps ≠ [] → (∀ p ∈ ps, Derives .element p.1 p.2) →
    Derives .sequence ([.ampersands].intercalate (ps.map (·.1))) (.inOrder (ps.map (·.2)))
  | split {ps : List (List Lexeme × Definition)} :
    ps ≠ [] → (∀ p ∈ ps, Derives .sequence p.1 p.2) →
    Derives .split (.openAngle :: [.bars].intercalate (ps.map (·.1)) ++ [.closeAngle])
      (.split (ps.map (·.2)))
  | group {ls d} :
    Derives .sequence ls d → Derives .group (.openParen :: ls ++ [.closeParen]) d
  | transition {ls t} {as : List Arm} :
    LabeledTask ls t → (∀ a ∈ as, a.status.pattern?.isSome) →
    (∀ a ∈ as, Derives .target a.lexemes a.target) →
    Derives .transition (ls ++ as.flatMap Arm.spelling) (.ofClauses t (as.map Arm.clause))
  | labeledTask {ls t} :
    LabeledTask ls t → Derives .labeledTask ls (.task t)
  | alternative {n m ls d} :
    m ∈ Phrase.alternatives n → Derives m ls d → Derives n ls d

end TaskFlow
