import TaskFlow.Definition.Fault
import TaskFlow.Text.Caret

namespace TaskFlow

structure Diagnostic where
  kind : String
  message : String
  offset : Option Int := none
  name : Option String := none
  node : Option String := none
deriving DecidableEq, Repr

namespace Diagnostic

-- The message on one line: behind the name of the definition, if it has one, and followed by the
-- place it is about.
def summary (d : Diagnostic) : String :=
  let name := d.name.getD ""
  (if name.isEmpty then "" else name ++ ": ")
    ++ d.message
    ++ d.offset.elim "" (fun offset => " (offset " ++ toString offset ++ ")")
    ++ d.node.elim "" (fun node => " (node '" ++ node ++ "')")

def withLine (d : Diagnostic) (text : Option String) : String :=
  match text, d.offset with
  | some text, some offset => d.summary ++ "\n" ++ Text.caret text offset
  | _, _ => d.summary

end Diagnostic

def ReadFault.diagnostic (f : ReadFault) (name : Option String) : Diagnostic where
  kind := f.cause.kind.name
  message := f.cause.message
  offset := some f.offset
  name

end TaskFlow
