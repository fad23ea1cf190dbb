import TaskFlow.CommandLine.Session

open TaskFlow TaskFlow.CommandLine

def readEnvironment : IO (List (String × String)) :=
  Settings.names.filterMapM fun name => do
    let key := Settings.environmentVariable name
    pure ((← IO.getEnv key).map (key, ·))

def readSource : Source → IO (Except String String)
  | .argument text => pure (.ok text)
  | .file path => do
    let text? ← try some <$> IO.FS.readFile path catch _ => pure none
    pure (text?.elim (.error path) (.ok ∘ Text.withUnifiedLines))
  | .standardInput => do
    let text ← (← IO.getStdin).readToEnd
    pure (.ok (Text.withUnifiedLines text))

def writeReport (report : Report) : IO UInt32 := do
  IO.print report.output
  IO.eprint report.errors
  pure (UInt32.ofNat report.code)

def main (arguments : List String) : IO UInt32 := do
  match Session.start arguments (← readEnvironment) with
  | .error (.report report) => writeReport report
  | .error (.unknownLevel name) =>
    writeReport { code := 1, errors := Log.Level.unknownMessage name ++ "\n" }
  | .ok session => writeReport (session.finish (← readSource session.source))
