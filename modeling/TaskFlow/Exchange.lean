import TaskFlow.Definition.Layout
import TaskFlow.Definition.Reader
import TaskFlow.Diagnostic.Document
import TaskFlow.Graph.Render
import TaskFlow.Json.Display
import TaskFlow.Log
import TaskFlow.Settings

namespace TaskFlow

inductive SpanValue
  | text (s : String)
  | count (n : Nat)
deriving DecidableEq, Repr

structure Span where
  name : String
  attributes : List (String × SpanValue)
deriving DecidableEq, Repr

structure Reply (α : Type) where
  outcome : Outcome α
  span : Span

namespace Exchange

def read (name text : Option String) (limit : Int) : Journal ReadFault Definition := do
  let d ← Definition.readOption text limit
  Journal.report (.read name d)
  pure d

def layOut (d : Definition) : Journal LayoutFault Graph := do
  let g ← d.toGraph
  Journal.report (.laidOut g.nodes.length g.links.length)
  pure g

def render (g : Graph) (limit : Int) : Journal RenderFault String := do
  let text ← g.render limit
  Journal.report (.rendered g.nodes.length text)
  pure text

def readWithin (settings : Settings) (name text : Option String) :
    Journal ReadFault Definition := do
  let length := (text.getD "").length
  if settings.maxLength < length then
    throw ⟨.tooLong length settings.maxLength, settings.maxLength⟩
  read name text settings.maxDepth

-- Bad input does not make the services fail; it gives an outcome with a diagnostic. Each call
-- reports what happens and leaves one span, which says what was asked and what came of it.
def graphForText (settings : Settings) (name text : Option String) :
    Journal LayoutFault (Reply Graph) := do
  let asked := [
    ("composedtask.name", .text (name.getD "")),
    ("composedtask.dsl_length", .count (text.getD "").length)]
  let reply := fun outcome noted => Reply.mk outcome ⟨"composedtask.parse", asked ++ [noted]⟩
  match ← ExceptT.lift (ExceptT.run (readWithin settings name text)) with
  | .error fault =>
    let d := fault.diagnostic name
    Journal.report (.rejected name d.summary)
    pure (reply (.error d) ("composedtask.error", .text d.kind))
  | .ok d =>
    let g ← layOut d
    pure (reply (.ok g) ("composedtask.nodes", .count g.nodes.length))

-- Only the first fault of a document counts.
def checkedGraph : Checked Graph → Except RenderFault Graph
  | .ok g => .ok g
  | .faulty first _ => .error ⟨.invalidDocument first, none⟩

def textForGraph (settings : Settings) (graph : Checked Graph) : Journal Empty (Reply String) := do
  let reply := fun outcome noted => Reply.mk outcome ⟨"composedtask.render", [noted]⟩
  let rendered : Journal RenderFault String := do
    let g ← checkedGraph graph
    render g settings.maxDepth
  match ← ExceptT.lift (ExceptT.run rendered) with
  | .error fault =>
    let d := fault.diagnostic
    Journal.report (.notRendered d.summary)
    pure (reply (.error d) ("composedtask.error", .text d.kind))
  | .ok text => pure (reply (.ok text) ("composedtask.text_length", .count text.length))

def parseDocument (settings : Settings) (fields : List (String × Json)) :
    Journal LayoutFault (Reply Graph) :=
  graphForText settings (Json.textOf fields "name") (Json.textOf fields "dsl")

end Exchange

end TaskFlow
