/-
  The command line.

  All decisions are made by `Command.performWords`; here files are read and written and messages
  are printed. No other program is started from here, so a run finds no engine.
-/
import RustScript.Command.Perform

namespace RustScript.Main

def readBytes (path : String) : IO (Option Source.Bytes) := do
  try
    return some (← IO.FS.readBinFile path).toList
  catch _ => return none

def isDirectory (path : String) : IO Bool := do
  try
    (← IO.FS.realPath path).isDir
  catch _ => return false

def directoryOf (path : String) : String :=
  let cs := path.toList
  match cs.reverse.dropWhile (· != '/') with
  | [] => "."
  | ['/'] => "/"
  | _ :: rest => String.ofList rest.reverse

/-- Whether a file can be written: it has a directory and is none. -/
def canWrite (path : String) : IO Bool := do
  if path.isEmpty || (← isDirectory path) then return false
  isDirectory (directoryOf path)

def settingVariables : IO Variables := do
  let mut vars : Variables := []
  for name in [Settings.engineVariable, Settings.timeLimitVariable, Settings.logLevelVariable] do
    if let some value ← IO.getEnv name then
      vars := vars.insert name value
  return vars

/-- What the command can find out about the files that its words name. -/
def host (words : List String) : IO Command.Host := do
  let options := (Command.Options.ofWords words).toOption.getD {}
  let bytes ← readBytes options.input
  let writable ← canWrite (options.output.getD "")
  return {
    read := fun _ => bytes
    canWrite := fun _ => writable
    engine := fun _ => .missing
    vars := ← settingVariables }

end RustScript.Main

open RustScript in
/-- Carries the command out and does what its report says. -/
def main (words : List String) : IO UInt32 := do
  let report := Command.performWords (← RustScript.Main.host words) words
  if let some (path, code) := report.written then
    IO.FS.writeFile path code
  IO.print report.stdout
  for notice in report.notices do
    IO.eprintln notice
  return report.ending.code.toUInt32
