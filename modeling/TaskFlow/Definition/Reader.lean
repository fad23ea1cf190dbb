import TaskFlow.Definition
import TaskFlow.Definition.Fault
import TaskFlow.Text.Blank
import TaskFlow.Token.Lexer

namespace TaskFlow

open ReadFault

-- A task with the clauses read so far, latest first, and the offset of its wildcard pattern.
structure Chain where
  source : TaskMention
  clauses : List Clause := []
  catchAll : Option Nat := none

namespace Chain

def definition (c : Chain) : Definition :=
  if c.clauses.isEmpty then .task c.source else .transition c.source c.clauses.reverse

def covers (c : Chain) (pattern : String) : Bool :=
  c.clauses.any (·.1 == some pattern)

def addClause (c : Chain) (pattern : String) (target : Definition) : Chain :=
  { c with clauses := (some pattern, target) :: c.clauses }

def noteStatus (c : Chain) (pattern : String) (offset : Nat) : Chain :=
  if pattern = wildcard then { c with catchAll := some offset } else c

end Chain

inductive Place
  | step
  | target (chain : Chain) (pattern : String)

-- What was read inside a bracket, latest first: the branches before the current one, and the steps
-- of the current one.
structure Level where
  branches : List Definition := []
  steps : List Definition := []

-- A bracket that is still open: its opening token, where it stands, and what was read around it.
structure Bracket where
  opening : Token
  place : Place
  outer : Level

inductive Awaiting
  | element
  -- A name was read, which may turn out to be a label.
  | afterName (name : String) (offset : Nat) (place : Place)
  | afterLabel (label : String) (offset : Nat) (place : Place)
  | afterLabeled (label : String) (labelOffset : Nat) (task : String) (offset : Nat) (place : Place)
  | clause (chain : Chain)
  | status (chain : Chain)
  | afterStatus (chain : Chain) (pattern : String) (offset : Nat)
  | target (chain : Chain) (pattern : String)
  | afterStep
  | nothing (whole : Definition)

-- The reader takes one token after the other and never looks further ahead. It holds the brackets
-- that are still open and, inside the innermost one, what was read already, so each token either
-- extends what was read or is refused where it stands. Labels are kept with their offsets, latest
-- first.
structure Reading where
  awaiting : Awaiting := .element
  level : Level := { }
  brackets : List Bracket := []
  labels : List (String × Nat) := []

namespace Reading

def refuse (t : Token) (cause : Cause) : Except ReadFault Reading :=
  .error ⟨cause, t.start⟩

def branch (l : Level) : Definition :=
  .inOrder l.steps.reverse

def put (r : Reading) (d : Definition) : Place → Reading
  | .step =>
    { r with level := { r.level with steps := d :: r.level.steps }, awaiting := .afterStep }
  | .target chain pattern => { r with awaiting := .clause (chain.addClause pattern d) }

-- Opens a bracket, unless that nests too deeply.
def openBracket (limit : Int) (r : Reading) (t : Token) (place : Place) :
    Except ReadFault Reading :=
  let depth := r.brackets.length + 1
  if limit < depth then refuse t (.tooDeep t.lexeme depth limit)
  else .ok { r with
    awaiting := .element, level := { }, brackets := ⟨t, place, r.level⟩ :: r.brackets }

def close (r : Reading) (b : Bracket) (rest : List Bracket) (d : Definition) : Reading :=
  { r with level := b.outer, brackets := rest }.put d b.place

def notClosing (b : Bracket) (expected : Expectation) (t : Token) : Cause :=
  if t.lexeme = .endOfInput || t.lexeme.closes then .unclosed b.opening t.lexeme
  else .unexpected expected t.lexeme

def takeAfterStep (r : Reading) (t : Token) : Except ReadFault Reading :=
  if t.lexeme = .ampersands then .ok { r with awaiting := .element }
  else
    match r.brackets with
    | [] =>
      if t.lexeme = .endOfInput then .ok { r with awaiting := .nothing (branch r.level) }
      else if t.lexeme.closes then refuse t (.unopened t.lexeme)
      else if t.lexeme = .bars then refuse t .barsOutsideSplit
      else refuse t (.unexpected .endOfStep t.lexeme)
    | b :: rest =>
      if b.opening.lexeme = .openAngle then
        let branches := branch r.level :: r.level.branches
        if t.lexeme = .bars then
          .ok { r with awaiting := .element, level := { branches } }
        else if t.lexeme = .closeAngle then .ok (r.close b rest (.split branches.reverse))
        else refuse t (notClosing b .endOfBranch t)
      else
        if t.lexeme = .closeParen then .ok (r.close b rest (branch r.level))
        else refuse t (notClosing b .endOfGroup t)

def takeClause (r : Reading) (chain : Chain) (t : Token) : Except ReadFault Reading :=
  if t.lexeme = .arrow then .ok { r with awaiting := .status chain }
  else (r.put chain.definition .step).takeAfterStep t

def takeAfterTask (r : Reading) (task : TaskMention) (place : Place) (t : Token) :
    Except ReadFault Reading :=
  match place with
  | .step => r.takeClause { source := task } t
  | .target chain pattern => r.takeClause (chain.addClause pattern (.task task)) t

-- Takes a token where an element or a target is expected; anything that begins neither is refused
-- for the given cause.
def takeElement (limit : Int) (r : Reading) (place : Place) (otherwise : Cause) (t : Token) :
    Except ReadFault Reading :=
  match t.lexeme with
  | .openAngle | .openParen => r.openBracket limit t place
  | .identifier name => .ok { r with awaiting := .afterName name t.start place }
  | _ => refuse t otherwise

def takeStatus (r : Reading) (chain : Chain) (t : Token) : Except ReadFault Reading :=
  match t.lexeme with
  | .identifier pattern | .quoted pattern =>
    .ok { r with awaiting := .afterStatus chain pattern t.start }
  | .star => .ok { r with awaiting := .afterStatus chain wildcard t.start }
  | _ => refuse t (.noStatus t.lexeme)

-- Takes the token behind a status pattern, which is judged only now.
def takeAfterStatus (r : Reading) (chain : Chain) (pattern : String) (offset : Nat) (t : Token) :
    Except ReadFault Reading :=
  if pattern.isEmpty then .error ⟨.emptyPattern, offset⟩
  else
    match chain.catchAll with
    | some catchAll => .error ⟨.afterCatchAll pattern catchAll, offset⟩
    | none =>
      if chain.covers pattern then
        .error ⟨.duplicateTransition chain.source.name pattern, offset⟩
      else if t.lexeme = .colon then
        .ok { r with awaiting := .target (chain.noteStatus pattern offset) pattern }
      else refuse t (.noColon pattern t.lexeme)

def takeLexeme (limit : Int) (r : Reading) (t : Token) : Except ReadFault Reading :=
  match r.awaiting with
  | .element => r.takeElement limit .step (.unexpected .element t.lexeme) t
  | .afterName name offset place =>
    if t.lexeme = .colon then .ok { r with awaiting := .afterLabel name offset place }
    else r.takeAfterTask { name, offset } place t
  | .afterLabel label labelOffset place =>
    match t.lexeme with
    | .identifier name =>
      .ok { r with awaiting := .afterLabeled label labelOffset name t.start place }
    | _ => refuse t (.unexpected (.taskAfterLabel label) t.lexeme)
  | .afterLabeled label labelOffset name offset place =>
    match r.labels.lookup label with
    | some first => .error ⟨.duplicateLabel label first, labelOffset⟩
    | none =>
      { r with labels := (label, labelOffset) :: r.labels }.takeAfterTask
        { name, label := some label, offset } place t
  | .clause chain => r.takeClause chain t
  | .status chain => r.takeStatus chain t
  | .afterStatus chain pattern offset => r.takeAfterStatus chain pattern offset t
  | .target chain pattern =>
    r.takeElement limit (.target chain pattern) (.noTarget pattern t.lexeme) t
  | .afterStep => r.takeAfterStep t
  | .nothing _ => .ok r

-- An invalid character is refused before anything else.
def step (limit : Int) (r : Reading) (t : Token) : Except ReadFault Reading :=
  match t.lexeme with
  | .invalid c => refuse t (.invalidCharacter c)
  | _ => r.takeLexeme limit t

def definition? (r : Reading) : Except ReadFault Definition :=
  match r.awaiting with
  | .nothing whole => .ok whole
  | _ => .error ⟨.unexpected .element .endOfInput, 0⟩

end Reading

namespace Definition

-- Reads a definition whose groups and splits nest at most `limit` levels deep.
def read (text : String) (limit : Int) : Except ReadFault Definition :=
  if text.toList.all Text.isBlank then .error ⟨.empty, 0⟩
  else do
    let r ← (Token.scan text).foldlM (Reading.step limit) { }
    r.definition?

-- A missing definition counts as empty.
def readOption (text : Option String) (limit : Int) : Except ReadFault Definition :=
  match text with
  | none => .error ⟨.empty, 0⟩
  | some text => read text limit

end Definition

end TaskFlow
