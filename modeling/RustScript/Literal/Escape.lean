/-
  Text inside JavaScript literals.

  Both kinds of literal escape the backslash, their own quote, the line ends and the characters that
  cannot stand in source, and a template literal `${`. The replacements are made one after the
  other, each in the whole text, so the backslash comes first.
-/
namespace RustScript.Literal

/-- The text with each occurrence of `old` replaced, from left to right; the next `skip` characters
    belong to an occurrence. -/
def replaceFrom (old new : List Char) : (skip : Nat) → List Char → List Char
  | _, [] => []
  | skip + 1, _ :: cs => replaceFrom old new skip cs
  | 0, c :: cs =>
    if old.isPrefixOf (c :: cs) then new ++ replaceFrom old new (old.length - 1) cs
    else c :: replaceFrom old new 0 cs

/-- Makes the replacements one after the other. -/
def replaceInTurn (steps : List (String × String)) (cs : List Char) : List Char :=
  steps.foldl (fun cs step => replaceFrom step.1.toList step.2.toList 0 cs) cs

/-- The replacements of the backslash and of the quote around the literal. -/
def quoteSteps (quote : String) : List (String × String) := [("\\", "\\\\"), (quote, "\\" ++ quote)]

/-- The replacements of the characters that cannot stand in a literal as they are. -/
def controlSteps : List (String × String) :=
  [("\n", "\\n"), ("\r", "\\r"), ("\t", "\\t"), ("\x00", "\\x00"), ("\u2028", "\\u2028"),
   ("\u2029", "\\u2029")]

def stringSteps : List (String × String) := quoteSteps "\"" ++ controlSteps

def templateSteps : List (String × String) := quoteSteps "`" ++ ("$\x7b", "\\$\x7b") :: controlSteps

def escapeString (s : String) : String := String.ofList (replaceInTurn stringSteps s.toList)

def escapeTemplate (s : String) : String := String.ofList (replaceInTurn templateSteps s.toList)

end RustScript.Literal
