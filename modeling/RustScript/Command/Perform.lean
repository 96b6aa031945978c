/-
  What the command does.

  The file system and the engine are given as functions, so that all decisions are made here and
  only their effects are left to the caller.
-/
import RustScript.Command.Options
import RustScript.Engine.Run
import RustScript.Registry

namespace RustScript.Command

/-- What the command can find out. -/
structure Host where
  read : String → Option Source.Bytes
  canWrite : String → Bool
  engine : Engine.Call → Engine.Reply
  vars : Variables

/-- A condition that ends the command outside its own order. -/
inductive Crash where
  | setting (cause : SettingError)
  | undecodable
  /-- An error that is not reported with a declaration. -/
  | source (cause : Error)
  | run (cause : Engine.RunError)

inductive Ending where
  | status (code : Nat)
  | crash (cause : Crash)

def Ending.code : Ending → Nat
  | status code => code
  | crash _ => 1

structure Report where
  ending : Ending := .status 0
  stdout : String := ""
  notices : List String := []
  written : Option (String × String) := none
  call : Option Engine.Call := none

namespace Report

def ended (code : Nat) (notice : String) : Report := { ending := .status code, notices := [notice] }

def crashed (cause : Crash) : Report := { ending := .crash cause }

end Report

def usage : String := "Usage: rustscript [OPTIONS] INPUT"

def runProgram (host : Host) (options : Options) (code : String) (done : Report) : Report :=
  match Engine.runCall host.vars {} code options.entry options.arguments with
  | .error cause => { done with ending := .crash (.run cause) }
  | .ok call =>
    let done := { done with call := some call }
    match Engine.runResult call (host.engine call) with
    | .ok output =>
      { done with
        stdout := done.stdout ++ output.stdout
        notices := done.notices ++ (if output.stderr.isEmpty then [] else [output.stderr]) }
    | .error (.failure f) =>
      { done with
        ending := .status 1
        stdout := done.stdout ++ f.stdout
        notices := done.notices ++ ["❌ " ++ f.cause.message] }
    | .error cause => { done with ending := .crash (.run cause) }

def deliver (host : Host) (options : Options) (count : Nat) (code : String) : Report :=
  match options.output with
  | none => if options.run then {} else { stdout := code }
  | some path =>
    if host.canWrite path then
      { written := some (path, code)
        notices := ["✅ Wrote " ++ toString count ++ " declarations to " ++ path] }
    else .ended 1 ("❌ Could not write " ++ path)

def finish (host : Host) (options : Options) (fragments : List String) : Report :=
  let style : Program.Style :=
    { preamble := options.preamble || options.run, pretty := options.pretty }
  let code := Program.assemble fragments style
  let done := deliver host options fragments.length code
  match done.ending with
  | .status 0 => if options.run then runProgram host options code done else done
  | _ => done

/-- Emits the declarations of a source text and goes on with the program. -/
def emitSource (host : Host) (options : Options) (text : String) : Report :=
  let notice (message : String) : String := "❌ " ++ options.input ++ ": " ++ message
  match Source.readItems text with
  | .error (.parse cause line column) => .ended 1 (notice (Error.parse cause line column).message)
  | .error e => .crashed (.source e)
  | .ok items =>
    match Outcome.ofItems Source.reader items with
    | .error e => .crashed (.source e)
    | .ok outcome =>
      if outcome.isOk then finish host options outcome.fragments
      else
        { ending := .status 1, notices := outcome.diagnostics.map fun d => notice d.text }

def perform (host : Host) (options : Options) : Report :=
  match Settings.logLevel host.vars with
  | .error cause => .crashed (.setting cause)
  | .ok _ =>
    match host.read options.input with
    | none => .ended 1 ("❌ Could not read " ++ options.input)
    | some bytes =>
      match Text.decode? bytes with
      | none => .crashed .undecodable
      | some text => emitSource host options (String.ofList (Text.plainNewlines text.toList))

def performWords (host : Host) (ws : List String) : Report :=
  match Options.ofWords ws with
  | .error e => .ended 2 e.message
  | .ok options => if options.help then { stdout := usage ++ "\n" } else perform host options

end RustScript.Command
