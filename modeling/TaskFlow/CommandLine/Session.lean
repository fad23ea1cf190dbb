import TaskFlow.CommandLine.Invocation
import TaskFlow.Exchange
import TaskFlow.Json.Printer
import TaskFlow.Json.Reader
import TaskFlow.Text.Line
import TaskFlow.Text.Path

namespace TaskFlow.CommandLine

structure Report where
  code : Nat
  output : String := ""
  errors : String := ""
deriving DecidableEq, Repr

inductive Ending
  | report (r : Report)
  | unknownLevel (name : String)
deriving DecidableEq, Repr

structure Session where
  settings : Settings
  level : Log.Level
  command : Command
deriving Repr

def Stop.report : Stop → Report
  | .help page => { code := 0, output := page.text }
  | .misuse page => { code := 2, errors := page.usage }

def settingsComplaint (faults : Nat) : String :=
  "[Error] Invalid COMPOSEDTASK_* configuration: " ++ toString faults ++ " validation error"
    ++ (if faults = 1 then "" else "s") ++ " for Settings\n"

namespace Session

-- Arguments are looked at first, then settings, then the log level, and last whether there is a
-- command.
def start (arguments : List String) (environment : List (String × String)) :
    Except Ending Session := do
  let invocation ← (Invocation.ofArguments arguments).mapError (.report ·.report)
  let settings ← match Settings.ofEnvironment environment with
    | .ok settings => pure settings
    | c => throw (.report { code := 2, errors := settingsComplaint c.faults.length })
  let levelName := (invocation.logLevel.filter (!·.isEmpty)).getD settings.logLevel
  let some level := Log.Level.ofName? levelName | throw (.unknownLevel levelName)
  let some command := invocation.command
    | throw (.report { code := 1, output := Page.program.text })
  pure ⟨settings, level, command⟩

def source (s : Session) : Source :=
  match s.command with
  | .parse _ source => source
  | .render none => .standardInput
  | .render (some path) => .file path

def logText (s : Session) (events : List Log.Event) : String :=
  Log.text s.level events

def parseReport (s : Session) (name : Option String) (text : String) : Report :=
  match (Exchange.graphForText s.settings name (some text)).run with
  | (.error fault, events) =>
    { code := 1, errors := s.logText events ++ "[Error] " ++ fault.message ++ "\n" }
  | (.ok reply, events) =>
    let output := (Outcome.graphToJson reply.outcome).pretty ++ "\n"
    match reply.outcome with
    | .ok _ => { code := 0, output, errors := s.logText events }
    | .error d =>
      { code := 1, output, errors := s.logText events ++ "[Error] " ++ d.withLine text ++ "\n" }

-- The graph in a document, which is a graph or the outcome of reading a definition.
def graphOf (document : Json) : Json :=
  match document.field? "graph", document.field? "nodes" with
  | some graph, none => graph
  | _, _ => document

def renderReport (s : Session) (document : Json) : Report :=
  match (Exchange.textForGraph s.settings (Graph.check (graphOf document))).run with
  | (.ok reply, events) =>
    match reply.outcome with
    | .ok text => { code := 0, output := text ++ "\n", errors := s.logText events }
    | .error d => { code := 1, errors := s.logText events ++ "[Error] " ++ d.summary ++ "\n" }

def missingReport (s : Session) (path : String) : Report :=
  let content := match s.command with
    | .parse .. => "DSL"
    | .render _ => "graph"
  { code := 1, errors := "Error: Could not find " ++ content ++ " file '" ++ path ++ "'\n" }

def finish (s : Session) : Except String String → Report
  | .error path => s.missingReport path
  | .ok text =>
    match s.command with
    | .parse name _ => s.parseReport name text
    | .render file =>
      match Json.read text with
      | .ok document => s.renderReport document
      | .error fault =>
        { code := 1
          errors := "[Error] " ++ file.getD "-" ++ " is not valid JSON: " ++ fault.inText text
            ++ "\n" }

end Session

-- What a run meets: environment variables, files by their tidy paths, and the standard input.
structure Surroundings where
  environment : List (String × String) := []
  file? : String → Option String := fun _ => none
  standardInput : String := ""

-- The text of a source, or the path of a file that is not there. Lines of files and of the standard
-- input may end in any way.
def Surroundings.read (s : Surroundings) : Source → Except String String
  | .argument text => .ok text
  | .file path => (s.file? (Text.tidyPath path)).elim (.error path) (.ok ∘ Text.withUnifiedLines)
  | .standardInput => .ok (Text.withUnifiedLines s.standardInput)

def run (s : Surroundings) (arguments : List String) : Ending :=
  match Session.start arguments s.environment with
  | .error ending => ending
  | .ok session => .report (session.finish (s.read session.source))

end TaskFlow.CommandLine
