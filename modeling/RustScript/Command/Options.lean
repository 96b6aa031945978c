/-
  The words of the command line.

  Options and the input file may come in any order. A value follows its option as the next word,
  whatever that looks like, or in the same word. Short options can share a word. Two hyphens end the
  options.
-/
namespace RustScript.Command

/-- What the command is asked to do. -/
structure Options where
  input : String := ""
  output : Option String := none
  run : Bool := false
  entry : Option String := none
  arguments : List String := []
  pretty : Bool := false
  preamble : Bool := true
  help : Bool := false

inductive Valued where
  | output
  | entry
  | argument

inductive Flag where
  | run
  | pretty
  | preamble
  | noPreamble
  | help

inductive Switch where
  | valued (o : Valued)
  | flag (f : Flag)

def long? : String → Option Switch
  | "--output" => some (.valued .output)
  | "--entry" => some (.valued .entry)
  | "--arg" => some (.valued .argument)
  | "--run" => some (.flag .run)
  | "--pretty" => some (.flag .pretty)
  | "--preamble" => some (.flag .preamble)
  | "--no-preamble" => some (.flag .noPreamble)
  | "--help" => some (.flag .help)
  | _ => none

def short? : Char → Option Switch
  | 'o' => some (.valued .output)
  | 'p' => some (.flag .pretty)
  | _ => none

def Options.withValue (options : Options) (value : String) : Valued → Options
  | .output => { options with output := some value }
  | .entry => { options with entry := some value }
  | .argument => { options with arguments := options.arguments ++ [value] }

def Options.withFlag (options : Options) : Flag → Options
  | .run => { options with run := true }
  | .pretty => { options with pretty := true }
  | .preamble => { options with preamble := true }
  | .noPreamble => { options with preamble := false }
  | .help => { options with help := true }

inductive UsageError where
  | unknown (option : String)
  | noValue (option : String)
  | needlessValue (option : String)
  | noInput
  | extra (words : List String)
  deriving DecidableEq, Repr

def UsageError.message : UsageError → String
  | unknown option => "No such option: " ++ option
  | noValue option => "Option '" ++ option ++ "' requires an argument."
  | needlessValue option => "Option '" ++ option ++ "' does not take a value."
  | noInput => "Missing argument 'INPUT'."
  | extra words => "Got unexpected extra argument (" ++ " ".intercalate words ++ ")"

/-- What a word leaves open: nothing, or the value of an option. -/
inductive Pending where
  | nothing
  | value (name : String) (o : Valued)

def shorts (options : Options) : List Char → Except UsageError (Options × Pending)
  | [] => .ok (options, .nothing)
  | c :: cs =>
    match short? c with
    | none => .error (.unknown (String.ofList ['-', c]))
    | some (.flag f) => shorts (options.withFlag f) cs
    | some (.valued o) =>
      if cs.isEmpty then .ok (options, .value (String.ofList ['-', c]) o)
      else .ok (options.withValue (String.ofList cs) o, .nothing)

def optionWord (options : Options) (word : String) : Except UsageError (Options × Pending) :=
  let cs := word.toList
  let name := String.ofList (cs.takeWhile (· != '='))
  let attached := (cs.dropWhile (· != '=')).tail?.map String.ofList
  match long? name, attached with
  | some (.flag f), none => .ok (options.withFlag f, .nothing)
  | some (.flag _), some _ => .error (.needlessValue name)
  | some (.valued o), some value => .ok (options.withValue value o, .nothing)
  | some (.valued o), none => .ok (options, .value name o)
  | none, _ =>
    if cs.take 2 == ['-', '-'] then .error (.unknown name) else shorts options (cs.drop 1)

/-- Reads words; the words that are no options are gathered. -/
def words (options : Options) (inputs : List String) : Pending → List String →
    Except UsageError (Options × List String)
  | .nothing, [] => .ok (options, inputs)
  | .value name _, [] => .error (.noValue name)
  | .value _ o, w :: ws => words (options.withValue w o) inputs .nothing ws
  | .nothing, w :: ws =>
    if w == "--" then .ok (options, inputs ++ ws)
    else if w.toList.head? == some '-' && w != "-" then do
      let (options, pending) ← optionWord options w
      words options inputs pending ws
    else words options (inputs ++ [w]) .nothing ws

def Options.ofWords (ws : List String) : Except UsageError Options := do
  let (options, inputs) ← words {} [] .nothing ws
  match inputs with
  | [input] => return { options with input }
  | [] => if options.help then return options else .error .noInput
  | _ :: rest => if options.help then return options else .error (.extra rest)

end RustScript.Command
