import TaskFlow.Definition
import TaskFlow.Token.Lexer

namespace TaskFlow

def TaskMention.text (t : TaskMention) : String :=
  t.label.elim "" (fun label => label ++ ": ") ++ t.name

-- An exit status pattern: bare where it reads as an identifier, otherwise between quotes. The
-- wildcard is quoted too.
def statusText (pattern : String) : String :=
  if isName pattern then pattern else "'" ++ pattern ++ "'"

namespace Definition

-- Whether a definition can be what follows a clause without parentheses around it.
def isSimple : Definition → Bool
  | task _ | split _ => true
  | _ => false

mutual

-- Between two tokens stands one space or none.
def text : Definition → String
  | task mention => mention.text
  | sequence steps => " && ".intercalate (texts steps)
  | split branches => "<" ++ " || ".intercalate (texts branches) ++ ">"
  | transition source clauses => source.text ++ clausesText clauses

def texts : List Definition → List String
  | [] => []
  | d :: ds => d.text :: texts ds

-- The clauses of a transition. A clause that needs no pattern has none to show.
def clausesText : List (Option String × Definition) → String
  | [] => ""
  | (pattern, target) :: clauses =>
    " -> " ++ statusText (pattern.getD "") ++ ": "
      ++ (if target.isSimple then target.text else "(" ++ target.text ++ ")")
      ++ clausesText clauses

end

end Definition

end TaskFlow
