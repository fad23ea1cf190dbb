import TaskFlow.Definition
import TaskFlow.Text.Quoted
import TaskFlow.Text.UpperCase

namespace TaskFlow

namespace Log

inductive Level
  | trace
  | debug
  | info
  | success
  | warning
  | error
  | critical
deriving DecidableEq, Repr

namespace Level

def name : Level → String
  | trace => "TRACE"
  | debug => "DEBUG"
  | info => "INFO"
  | success => "SUCCESS"
  | warning => "WARNING"
  | error => "ERROR"
  | critical => "CRITICAL"

def all : List Level := [trace, debug, info, success, warning, error, critical]

-- The level of a given name, in upper or lower case.
def ofName? (name : String) : Option Level :=
  let name := Text.upper name
  all.find? (·.name == name)

def unknownMessage (name : String) : String :=
  "Level " ++ Text.quoted (Text.upper name) ++ " does not exist"

-- Whether a log of the first level shows records of the second one.
def shows (shown level : Level) : Bool :=
  all.idxOf shown ≤ all.idxOf level

end Level

inductive Event
  | read (name : Option String) (d : Definition)
  | laidOut (nodes links : Nat)
  | rendered (nodes : Nat) (text : String)
  | rejected (name : Option String) (summary : String)
  | notRendered (summary : String)

def form : Definition → String
  | .task _ => "TaskRef"
  | .sequence _ => "Sequence"
  | .split _ => "Split"
  | .transition .. => "Transition"

namespace Event

def level : Event → Level
  | read .. | laidOut .. | rendered .. => .debug
  | rejected .. | notRendered _ => .info

-- The part of the program an event comes from.
def origin : Event → String
  | read .. => "composedtask.parser"
  | laidOut .. => "composedtask.builder"
  | rendered .. => "composedtask.renderer"
  | rejected .. | notRendered _ => "composedtask.tools"

def message : Event → String
  | read name d => "Parsed composed task " ++ Text.quotedOrNone name ++ ": " ++ form d
  | laidOut nodes links =>
    "Built graph with " ++ toString nodes ++ " nodes and " ++ toString links ++ " links"
  | rendered nodes text => "Rendered graph with " ++ toString nodes ++ " nodes: " ++ text
  | rejected name summary => "Rejected composed task " ++ Text.quotedOrNone name ++ ": " ++ summary
  | notRendered summary => "Cannot render graph: " ++ summary

def record (e : Event) : String :=
  let level := e.level.name
  level ++ String.ofList (List.replicate (7 - level.length) ' ') ++ " | " ++ e.origin ++ " - "
    ++ e.message ++ "\n"

end Event

def text (level : Level) (events : List Event) : String :=
  String.join ((events.filter fun e => level.shows e.level).map Event.record)

end Log

-- A computation that reports events, also those before it fails.
abbrev Journal (ε : Type) := ExceptT ε (StateM (List Log.Event))

namespace Journal

def report (e : Log.Event) : Journal ε Unit :=
  modify (· ++ [e])

def run (j : Journal ε α) : Except ε α × List Log.Event :=
  StateT.run (ExceptT.run j) []

end Journal

end TaskFlow
