/-
  Calls of a JavaScript engine.

  A call says which program gets which script and how long it may take; a reply says what came of
  it. What the library makes of a reply is a function of the two, whoever carries out the call.
-/
import RustScript.Settings

namespace RustScript.Engine

/-- Seconds that a run may take. -/
inductive Limit where
  | whole (seconds : Nat)
  | exact (seconds : Double)

def Limit.text : Limit → String
  | whole seconds => toString seconds
  | exact seconds => seconds.toText

structure Call where
  binary : String
  script : String
  limit : Limit

def Call.arguments (c : Call) : List String := [c.binary, "-"]

inductive Reply where
  | missing
  | unfinished (stdout stderr : String)
  | finished (stdout stderr : String) (status : Int)

/-- What a program that went well has written. -/
structure Output where
  stdout : String
  stderr : String

inductive Cause where
  | missing (binary : String)
  | unfinished (limit : Limit)
  | exited (status : Int) (stderr : String)
  | silent (expression : String)

def Cause.message : Cause → String
  | missing binary => "JavaScript engine not found: " ++ binary
  | unfinished limit => "Program did not finish within " ++ limit.text ++ " seconds"
  | exited status stderr =>
    "Program exited with status " ++ toString status ++ ": " ++ Text.strip stderr
  | silent expression => "Expression produced no result: " ++ expression

/-- A run that failed, with what the program had written by then. -/
structure Failure where
  cause : Cause
  stdout : String := ""
  stderr : String := ""
  status : Option Int := none

def Call.outcome (c : Call) : Reply → Except Failure Output
  | .missing => .error { cause := .missing c.binary }
  | .unfinished stdout stderr => .error { cause := .unfinished c.limit, stdout, stderr }
  | .finished stdout stderr status =>
    if status == 0 then .ok { stdout, stderr }
    else .error { cause := .exited status stderr, stdout, stderr, status := some status }

/-- The engine and the limit of a run, each as asked for or else as set. -/
structure Choice where
  binary : Option String := none
  limit : Option Limit := none

def Choice.call (choice : Choice) (vars : Variables) (script : String) :
    Except SettingError Call := do
  let binary := (choice.binary.filter fun b => !b.isEmpty).getD (Settings.engine vars)
  let limit ←
    match choice.limit with
    | some limit => pure limit
    | none => Limit.exact <$> Settings.timeLimit vars
  return { binary, script, limit }

end RustScript.Engine
