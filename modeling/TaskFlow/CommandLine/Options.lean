import TaskFlow.Text.Digit

namespace TaskFlow.CommandLine

-- An option is a letter behind one dash or a word behind two. A word may be cut short as long as
-- one option alone begins like it. A value stands in the next argument, behind an equals sign, or
-- directly behind the letter. Letters of options without a value may share one dash. Two dashes
-- alone end the options.
structure OptionTable (κ : Type) where
  spellings : List (String × κ)
  takesValue : κ → Bool

inductive Mark (κ : Type)
  | operand
  | option (kind : κ) (behind : List Char)
  | ambiguous
  | stray
deriving DecidableEq, Repr

inductive Tail (κ : Type)
  | complete
  | stray
  | value (kind : κ) (value : String)
  | wanting (kind : κ)
deriving DecidableEq, Repr

inductive Piece (κ : Type)
  | flag (kind : κ)
  | setting (kind : κ) (value : String)
  | operand (text : String) (after : List String)
  | separator (after : List String)
  | stray
  | misuse
deriving DecidableEq, Repr

def separator : String := "--"

namespace OptionTable

variable (t : OptionTable κ)

def abbreviated (word : List Char) : List κ :=
  (t.spellings.filter fun (spelling, _) => word.isPrefixOf spelling.toList).map (·.2)

def letter? (c : Char) : Option κ :=
  t.spellings.lookup (String.ofList ['-', c])

-- The readings of an argument that begins with a dash and is no full spelling.
def readings (argument : List Char) : List (κ × List Char) :=
  match argument with
  | '-' :: '-' :: _ =>
    (t.abbreviated (argument.takeWhile (· != '='))).map (·, argument.dropWhile (· != '='))
  | '-' :: c :: cs => ((t.letter? c).map (·, cs)).toList
  | _ => []

-- What an argument is that begins with a dash and stands for no option. Numbers and texts with
-- spaces are no attempts at one.
def markUnknown (argument : List Char) : Mark κ :=
  if Text.isNumeral argument.tail || argument.contains ' ' then .operand else .stray

def markDashed (argument : List Char) : Mark κ :=
  match t.spellings.lookup (String.ofList argument) with
  | some kind => .option kind []
  | none =>
    match t.spellings.lookup (String.ofList (argument.takeWhile (· != '='))) with
    | some kind => .option kind (argument.dropWhile (· != '='))
    | none =>
      match t.readings argument with
      | [] => markUnknown argument
      | [(kind, behind)] => .option kind behind
      | _ => .ambiguous

-- A lone dash is an operand.
def mark (argument : String) : Mark κ :=
  match argument.toList with
  | '-' :: c :: cs => t.markDashed ('-' :: c :: cs)
  | _ => .operand

-- The options in one argument: those without a value, and how the argument ends. There are none if
-- an option that takes no value has one.
def bundle (kind : κ) : List Char → Option (List κ × Tail κ)
  | [] => some (if t.takesValue kind then ([], .wanting kind) else ([kind], .complete))
  | c :: cs =>
    if t.takesValue kind then
      some ([], .value kind (String.ofList (if c = '=' then cs else c :: cs)))
    else if c = '=' || c = '-' then none
    else
      match t.letter? c with
      | none => some ([kind], .stray)
      | some next => (bundle next cs).map fun (kinds, tail) => (kind :: kinds, tail)

def isValue (argument : String) : Bool :=
  argument != separator && t.mark argument matches .operand

-- The pieces of arguments. In front of them may stand an option that waits for its value, with the
-- options that share its dash. Nothing follows misuse.
def piecesFrom : Option (List κ × κ) → List String → List (Piece κ)
  | none, [] => []
  | some _, [] => [.misuse]
  | some (kinds, kind), argument :: after =>
    if t.isValue argument then
      kinds.map .flag ++ .setting kind argument :: piecesFrom none after
    else [.misuse]
  | none, argument :: after =>
    if argument = separator then [.separator after]
    else
      match t.mark argument with
      | .operand => .operand argument after :: piecesFrom none after
      | .ambiguous => [.misuse]
      | .stray => .stray :: piecesFrom none after
      | .option kind behind =>
        match t.bundle kind behind with
        | none => [.misuse]
        | some (kinds, .complete) => kinds.map .flag ++ piecesFrom none after
        | some (kinds, .stray) => kinds.map .flag ++ .stray :: piecesFrom none after
        | some (kinds, .value kind value) =>
          kinds.map .flag ++ .setting kind value :: piecesFrom none after
        | some (kinds, .wanting kind) => piecesFrom (some (kinds, kind)) after

-- An option that can be read in two ways spoils everything, also what stands in front of it.
def pieces (arguments : List String) : List (Piece κ) :=
  if (arguments.takeWhile (· != separator)).any (t.mark · matches .ambiguous) then [.misuse]
  else t.piecesFrom none arguments

end OptionTable

end TaskFlow.CommandLine
