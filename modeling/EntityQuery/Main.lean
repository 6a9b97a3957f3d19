import EntityQuery.CommandLine.Report

/-!
# The program

Fetches the files and variables that an invocation may ask for, and prints its outcome.
-/

open EntityQuery EntityQuery.CommandLine

/-- Why a file could not be read. The number of an error may come with its sign turned. -/
def fileErrorOf (e : IO.Error) : FileError :=
  let number (code : UInt32) : UInt32 := min code (0 - code)
  match e with
  | .noFileOrDirectory .. => .missing
  | .inappropriateType _ code _ => if number code = 20 then .notDirectory else .directory
  | .invalidArgument _ code reason => if number code = 36 then .nameTooLong else .other reason
  | .permissionDenied _ code reason => .other s!"{reason} (os error {number code})"
  | e => .other (toString e)

/-- The text of a file, or why there is none. -/
def readText (path : String) : IO File := do
  try
    match String.fromUTF8? (← IO.FS.readBinFile path) with
    | some text => return .ok text
    | none => return .error (.other "stream did not contain valid UTF-8")
  catch e => return .error (fileErrorOf e)

/-- The host of an invocation: its files, and the variables of its settings file. -/
def hostOf (i : Invocation) : IO Host := do
  let files ← (i.config.toList ++ i.command.files).mapM fun path => do
    return (path, ← readText path)
  let file (path : String) : File := (files.lookup path).getD (.error .missing)
  let names := match i.config.map file with
    | some (.ok text) => Settings.variablesOf text
    | _ => []
  let values ← names.filterMapM fun name => do
    return (← IO.getEnv name).map (name, ·)
  return ⟨file, values⟩

def main (args : List String) : IO UInt32 := do
  let outcome ← match parse args with
    | .ok invocation => do pure (invocation.run (← hostOf invocation))
    | .error stop => pure stop.outcome
  (← IO.getStdout).putStr outcome.out
  (← IO.getStderr).putStr outcome.err
  return UInt32.ofNat outcome.exit
