/-
  Running a program and evaluating an expression.

  A run calls one function of the program. An evaluation prints the value of an expression as JSON
  on a line that begins with a mark, and the last line with the mark counts.
-/
import RustScript.Engine.Call
import RustScript.Json.Print
import RustScript.Json.Read
import RustScript.Text.Lines

namespace RustScript.Engine

inductive RunError where
  | setting (cause : SettingError)
  | entry (name : String)
  | failure (cause : Failure)
  | result (cause : Json.ReadError)

/-- The wording of an error; a result that is no JSON has none. -/
def RunError.message : RunError → String
  | setting cause => cause.message
  | entry name => "Invalid entry function name: " ++ Text.quoted name
  | failure cause => cause.cause.message
  | result _ => ""

/-! ## Scripts -/

def beginsName (c : Char) : Bool := c.isAlpha || c == '_' || c == '$'

def isName : List Char → Bool
  | [] => false
  | c :: cs => beginsName c && cs.all fun c => beginsName c || c.isDigit

def cutPoints : List Char → List (List Char)
  | [] => [[]]
  | c :: cs => if c == '.' then [] :: cutPoints cs else Text.onFirst c (cutPoints cs)

/-- Whether a text names a function: names with points between them, perhaps a line feed at the
    end. -/
def isEntry (s : String) : Bool :=
  let cs := s.toList
  let cs := if cs.getLast? == some '\n' then cs.dropLast else cs
  (cutPoints cs).all isName

def entryCall : Option String → Except RunError String
  | none => .ok "typeof main === \"function\" ? main() : undefined"
  | some entry => if isEntry entry then .ok (entry ++ "()") else .error (.entry entry)

def reporting (promise : String) : String :=
  "Promise.resolve().then(() => " ++ promise ++ ").catch((e) => \x7b\n" ++
  "console.error(e && e.stack ? e.stack : String(e));\n" ++
  "process.exitCode = 1;\n" ++
  "\x7d);"

def textsJson (texts : List String) : String :=
  (Json.Value.array (texts.map fun s => .string (Json.units s))).text

def runScript (code : String) (arguments : List String) (call : String) : String :=
  "\n".intercalate
    ["globalThis.__rust_args = " ++ textsJson arguments ++ ";", code, reporting call]

def resultMark : String := "__ferrojs_result__"

def evaluationScript (code expression : String) : String :=
  let printing := "(($v) => console.log(\"" ++ resultMark ++
    "\" + JSON.stringify($v === undefined ? null : $v)))"
  "\n".intercalate
    [code, reporting ("Promise.resolve(" ++ expression ++ ").then(" ++ printing ++ ")")]

/-! ## Runs -/

def runCall (vars : Variables) (choice : Choice) (code : String) (entry : Option String)
    (arguments : List String) : Except RunError Call := do
  let call ← entryCall entry
  (choice.call vars (runScript code arguments call)).mapError .setting

def evaluationCall (vars : Variables) (choice : Choice) (code expression : String) :
    Except RunError Call :=
  (choice.call vars (evaluationScript code expression)).mapError .setting

/-- What the last line that begins with the mark of a result shows behind it. -/
def markedText? (stdout : String) : Option String :=
  let marked (line : String) : Option String :=
    if resultMark.toList.isPrefixOf line.toList then
      some (String.ofList (line.toList.drop resultMark.length))
    else none
  (Text.outputLines stdout).reverse.findSome? marked

def runResult (c : Call) (reply : Reply) : Except RunError Output :=
  (c.outcome reply).mapError .failure

/-- The result of an evaluation: the JSON value that the marked line shows. -/
def evaluationResult (c : Call) (expression : String) (reply : Reply) :
    Except RunError Json.Value := do
  let output ← runResult c reply
  match markedText? output.stdout with
  | some text => (Json.read text).mapError .result
  | none =>
    .error (.failure
      { cause := .silent expression, stdout := output.stdout, stderr := output.stderr,
        status := some 0 })

def run (engine : Call → Reply) (vars : Variables) (choice : Choice) (code : String)
    (entry : Option String) (arguments : List String) : Except RunError Output := do
  let c ← runCall vars choice code entry arguments
  runResult c (engine c)

def evaluate (engine : Call → Reply) (vars : Variables) (choice : Choice)
    (code expression : String) : Except RunError Json.Value := do
  let c ← evaluationCall vars choice code expression
  evaluationResult c expression (engine c)

end RustScript.Engine
