namespace TaskFlow

-- The offset is where the name stands in the text it was read from.
structure TaskMention where
  name : String
  label : Option String := none
  offset : Nat := 0
deriving DecidableEq, Repr

inductive Definition
  | task (mention : TaskMention)
  | sequence (steps : List Definition)
  | split (branches : List Definition)
  | transition (source : TaskMention) (clauses : List (Option String × Definition))
deriving Repr

-- An exit status pattern, and what follows a status that it selects.
abbrev Clause := Option String × Definition

-- The pattern that selects every status no other pattern selects.
def wildcard : String := "*"

namespace Definition

-- The steps of a sequence. Any other definition is its own only step.
def steps : Definition → List Definition
  | sequence steps => steps
  | d => [d]

-- The only definition, or a sequence in which sequences are spliced.
def inOrder : List Definition → Definition
  | [d] => d
  | ds => sequence (ds.flatMap steps)

end Definition

end TaskFlow
