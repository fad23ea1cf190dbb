import TaskFlow.CommandLine.Options
import TaskFlow.Text.Path

namespace TaskFlow.CommandLine

inductive Page
  | program
  | parse
  | render
deriving DecidableEq, Repr

inductive Stop
  | help (page : Page)
  | misuse (page : Page)
deriving DecidableEq, Repr

inductive Source
  | argument (text : String)
  | file (path : String)
  | standardInput
deriving DecidableEq, Repr

inductive Command
  | parse (name : Option String) (source : Source)
  | render (file : Option String)
deriving DecidableEq, Repr

structure Invocation where
  logLevel : Option String
  command : Option Command
deriving DecidableEq, Repr

inductive ProgramOption
  | help
  | logLevel
  | trace
deriving DecidableEq, Repr

inductive ParseOption
  | help
  | name
  | file
deriving DecidableEq, Repr

inductive RenderOption
  | help
deriving DecidableEq, Repr

def programOptions : OptionTable ProgramOption where
  spellings := [("-h", .help), ("--help", .help), ("--log-level", .logLevel), ("--trace", .trace)]
  takesValue kind := kind matches .logLevel

def parseOptions : OptionTable ParseOption where
  spellings := [("-h", .help), ("--help", .help), ("--name", .name), ("-f", .file),
    ("--file", .file)]
  takesValue kind := kind matches .name | .file

def renderOptions : OptionTable RenderOption where
  spellings := [("-h", .help), ("--help", .help)]
  takesValue _ := false

structure Given (κ : Type) where
  -- The latest first.
  settings : List (κ × String) := []
  operand : Option String := none
  excess : Bool := false
deriving DecidableEq, Repr

namespace Given

-- Takes the arguments behind the end of the options. Where no operand may follow, the end of the
-- options itself is too much.
def addOperands (g : Given κ) (after : List String) : Given κ :=
  match g.operand, after with
  | none, [] => g
  | none, text :: more => { g with operand := some text, excess := g.excess || !more.isEmpty }
  | some _, _ => { g with excess := true }

-- The only option of a command without a value asks for help. The end of the options may directly
-- follow the operand.
def ofPieces (page : Page) (g : Given κ) : List (Piece κ) → Except Stop (Given κ)
  | [] => .ok g
  | .flag _ :: _ => .error (.help page)
  | .misuse :: _ => .error (.misuse page)
  | .setting kind value :: pieces =>
    ofPieces page { g with settings := (kind, value) :: g.settings } pieces
  | .stray :: pieces => ofPieces page { g with excess := true } pieces
  | [.operand text _, .separator []] => .ok (g.addOperands [text])
  | .operand text _ :: pieces => ofPieces page (g.addOperands [text]) pieces
  | .separator after :: _ => .ok (g.addOperands after)

variable [BEq κ]

def value? (g : Given κ) (kind : κ) : Option String :=
  g.settings.lookup kind

end Given

-- A file wins over a definition among the arguments. Its path is tidied.
def Command.ofParse (g : Given ParseOption) : Command :=
  .parse (g.value? .name) <|
    match g.value? .file, g.operand with
    | some path, _ => .file (Text.tidyPath path)
    | none, some text => .argument text
    | none, none => .standardInput

-- A lone dash means the standard input.
def Command.ofRender (g : Given RenderOption) : Command :=
  .render (g.operand.filter (· != "-"))

-- The command of a given name, and whether its arguments are too many.
def Command.read (name : String) (arguments : List String) : Except Stop (Command × Bool) :=
  match name with
  | "parse" => do
    let g ← Given.ofPieces .parse { } (parseOptions.pieces arguments)
    pure (.ofParse g, g.excess)
  | "render" => do
    let g ← Given.ofPieces .render { } (renderOptions.pieces arguments)
    pure (.ofRender g, g.excess)
  | _ => .error (.misuse .program)

namespace Invocation

-- An excess among the arguments shows only when everything else has been read.
def ofPieces (logLevel : Option String) (excess : Bool) :
    List (Piece ProgramOption) → Except Stop Invocation
  | [] => if excess then .error (.misuse .program) else .ok ⟨logLevel, none⟩
  | .flag .help :: _ => .error (.help .program)
  | .flag _ :: pieces => ofPieces logLevel excess pieces
  | .setting _ value :: pieces => ofPieces (some value) excess pieces
  | .stray :: pieces => ofPieces logLevel true pieces
  | .misuse :: _ | .separator _ :: _ => .error (.misuse .program)
  | .operand name after :: _ => do
    let (command, more) ← Command.read name after
    if excess || more then .error (.misuse .program) else pure ⟨logLevel, some command⟩

def ofArguments (arguments : List String) : Except Stop Invocation :=
  ofPieces none false (programOptions.pieces arguments)

end Invocation

namespace Page

def usage : Page → String
  | program =>
    "usage: composedtask [-h] [--log-level LOG_LEVEL] [--trace] \x7bparse,render\x7d ...\n"
  | parse => "usage: composedtask parse [-h] [--name NAME] [-f FILE] [dsl]\n"
  | render => "usage: composedtask render [-h] [graph]\n"

def details : Page → List String
  | program => [
    "Composed task DSL tools - convert definitions to graphs and back",
    "positional arguments:",
    "  \x7bparse,render\x7d",
    "    parse               Parse a composed task definition into a graph (JSON)",
    "    render              Render a graph (JSON) as DSL text",
    "options:",
    "  -h, --help            show this help message and exit",
    "  --log-level LOG_LEVEL",
    "                        Log level (default: COMPOSEDTASK_LOG_LEVEL or WARNING)",
    "  --trace               Print OpenTelemetry spans to stderr"]
  | parse => [
    "positional arguments:",
    "  dsl                   DSL text, e.g. \"<a || b> && c\" (default: stdin)",
    "options:",
    "  -h, --help            show this help message and exit",
    "  --name NAME           Name of the composed task, used in error messages",
    "  -f FILE, --file FILE  Read the DSL text from a file"]
  | render => [
    "positional arguments:",
    "  graph       Graph JSON file, '-' for stdin",
    "options:",
    "  -h, --help  show this help message and exit"]

-- A line that is not indented begins a paragraph.
def text (page : Page) : String :=
  page.usage ++ String.join (page.details.map fun line =>
    (if line.startsWith " " then "" else "\n") ++ line ++ "\n")

end Page

end TaskFlow.CommandLine
