/-
  Settings that live in environment variables.

  A setting is read from its variable every time it is asked for, and changed by writing the
  variable. An empty variable counts as unset.
-/
import RustScript.Number.Reading
import RustScript.Number.Shortest
import RustScript.Text.Quoted
import RustScript.Text.Upper

namespace RustScript

abbrev Variables := List (String × String)

namespace Variables

def get? (vars : Variables) (name : String) : Option String := vars.lookup name

def erase (vars : Variables) (name : String) : Variables := vars.filter fun v => v.1 != name

def insert (vars : Variables) (name value : String) : Variables := (name, value) :: vars.erase name

def nonempty? (vars : Variables) (name : String) : Option String :=
  (vars.get? name).filter fun s => !s.isEmpty

end Variables

/-- A variable with a value that is none for its setting. -/
inductive SettingError where
  | notANumber (raw : String)
  | notALevel (name : String)
  deriving DecidableEq, Repr

namespace Settings

def engineVariable : String := "FERROJS_NODE"

def timeLimitVariable : String := "FERROJS_RUN_TIMEOUT"

def logLevelVariable : String := "FERROJS_LOG_LEVEL"

def engine (vars : Variables) : String := (vars.nonempty? engineVariable).getD "node"

/-- The seconds that a run may take, ten unless stated. -/
def timeLimit (vars : Variables) : Except SettingError Double :=
  match vars.nonempty? timeLimitVariable with
  | none => .ok (Double.ofDecimal false 10 0)
  | some raw =>
    match Reading.float? raw.toList with
    | some d => .ok d
    | none => .error (.notANumber raw)

def levels : List (String × Nat) :=
  [("CRITICAL", 50), ("FATAL", 50), ("ERROR", 40), ("WARNING", 30), ("WARN", 30), ("INFO", 20),
   ("DEBUG", 10), ("NOTSET", 0)]

/-- The least level of messages that are logged. Names are taken in any case. -/
def logLevel (vars : Variables) : Except SettingError Nat :=
  let name := Text.toUpper ((vars.nonempty? logLevelVariable).getD "WARNING")
  match levels.lookup name with
  | some level => .ok level
  | none => .error (.notALevel name)

def setEngine (vars : Variables) (name : String) : Variables := vars.insert engineVariable name

def setTimeLimit (vars : Variables) (limit : Double) : Variables :=
  vars.insert timeLimitVariable limit.toText

def setLogLevel (vars : Variables) (name : String) : Variables := vars.insert logLevelVariable name

end Settings

def SettingError.message : SettingError → String
  | notANumber raw =>
    Settings.timeLimitVariable ++ " must be a number of seconds, got " ++ Text.quoted raw
  | notALevel name => Settings.logLevelVariable ++ " is not a logging level: " ++ Text.quoted name

end RustScript
