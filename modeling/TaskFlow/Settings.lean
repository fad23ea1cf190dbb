import TaskFlow.Document.Integer
import TaskFlow.Text.UpperCase

namespace TaskFlow

structure Settings where
  maxLength : Nat := 65536
  maxDepth : Nat := 64
  logLevel : String := "WARNING"
  trace : Bool := false
deriving DecidableEq, Repr

namespace Settings

open Checked

def checkLevel (j : Json) : Checked String :=
  (fun s => Text.upper (Text.trim s)) <$> string j

def switchWords : List String := ["1", "true", "yes", "on"]

-- Whether tracing is on. A text never fails: it is on or off. Letter case does not matter, and only
-- ASCII letters have a lower case among the letters of the words.
def checkTrace : Json → Checked Bool
  | .bool b => .ok b
  | .string s => .ok (switchWords.contains (Text.trim s).toLower)
  | .int n =>
    if n = 0 then .ok false
    else if n = 1 then .ok true
    else if Int64.minValue.toInt ≤ n && n ≤ Int64.maxValue.toInt then fail .unreadableBoolean
    else fail .notBoolean
  | .float x => if x == 0 then .ok false else if x == 1 then .ok true else fail .notBoolean
  | _ => fail .notBoolean

def check : Json → Checked Settings :=
  model "Settings" fun fields =>
    Settings.mk
      <$> optional fields "max_dsl_length" 65536
        (fun j => Int.toNat <$> Integer.checkWithin 0 none j)
      <*> optional fields "max_nesting_depth" 64
        (fun j => Int.toNat <$> Integer.checkWithin 0 (some 100) j)
      <*> optional fields "log_level" "WARNING" checkLevel
      <*> optional fields "trace" false checkTrace

def names : List String := ["max_dsl_length", "max_nesting_depth", "log_level", "trace"]

def environmentVariable (name : String) : String :=
  "COMPOSEDTASK_" ++ name.toUpper

def ofEnvironment (environment : List (String × String)) : Checked Settings :=
  check (.object (names.filterMap fun name =>
    (environment.lookup (environmentVariable name)).map fun value => (name, .string value)))

end Settings

end TaskFlow
