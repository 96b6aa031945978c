/-
  Tokens with a structure of their own: literals, the operators and the trees of tokens that
  macros take.
-/
import RustScript.Grammar.Parser

namespace RustScript.Grammar

/-! ## Numbers -/

def numberTypes : List String :=
  ["u8", "i8", "u16", "i16", "u32", "i32", "u64", "i64", "u128", "i128", "isize", "usize", "f32",
   "f64"]

def suffixLength (cs : List Char) : Nat :=
  numberTypes.foldl
    (fun n ty => if ty.toList.isPrefixOf cs then max n ty.length else n) 0

def isHexDigit (c : Char) : Bool := c.isDigit || ('a' ≤ c && c ≤ 'f') || ('A' ≤ c && c ≤ 'F')

def isNumberChar (c : Char) : Bool := c.isDigit || c == '_'

def integerDigits (cs : List Char) : Nat :=
  let run (p : Char → Bool) (cs : List Char) : Nat := (cs.takeWhile fun c => p c || c == '_').length
  let marked :=
    match cs with
    | '0' :: 'x' :: rest => run isHexDigit rest
    | '0' :: 'b' :: rest => run (fun c => c == '0' || c == '1') rest
    | '0' :: 'o' :: rest => run (fun c => '0' ≤ c && c ≤ '7') rest
    | _ => 0
  if marked != 0 then marked + 2
  else
    match cs with
    | c :: rest => if c.isDigit then 1 + run Char.isDigit rest else 0
    | [] => 0

def integerLength? (cs : List Char) : Option Nat :=
  match integerDigits cs with
  | 0 => none
  | n => some (n + suffixLength (cs.drop n))

/-- The length of a fraction: a point that is followed neither by a letter nor by a point, and
    digits. -/
def fractionLength? (cs : List Char) : Option Nat :=
  match cs with
  | '.' :: rest =>
    match rest with
    | c :: _ =>
      if c == '.' || Text.isNameStart c then none
      else some (1 + (rest.takeWhile isNumberChar).length)
    | [] => some 1
  | _ => some 0

def exponentLength (cs : List Char) : Nat :=
  match cs with
  | e :: rest =>
    if e == 'e' || e == 'E' then
      let sign := if rest.head? == some '+' || rest.head? == some '-' then 1 else 0
      let digits := ((rest.drop sign).takeWhile isNumberChar).length
      if digits == 0 then 0 else 1 + sign + digits
    else 0
  | [] => 0

def floatSuffixLength (cs : List Char) : Nat :=
  match cs with
  | c :: rest =>
    let digits := (rest.takeWhile Char.isDigit).length
    if (c == 'u' || c == 'i' || c == 'f') && digits != 0 then 1 + digits else 0
  | [] => 0

/-- The length of a floating-point number at the front: it has a fraction or an exponent. A mark of
    an exponent without digits makes the number end before it. -/
def floatLength? (cs : List Char) : Option Nat := do
  if !(cs.head?.any Char.isDigit) then none
  else
    let whole := (cs.takeWhile isNumberChar).length
    let fraction ← fractionLength? (cs.drop whole)
    let rest := cs.drop (whole + fraction)
    let marked := rest.head? == some 'e' || rest.head? == some 'E'
    let exponent := exponentLength rest
    if fraction == 0 && !marked then none
    else if marked && exponent == 0 then some (whole + fraction)
    else
      let n := whole + fraction + exponent
      some (n + floatSuffixLength (cs.drop n))

/-! ## Texts -/

def escapeLength? (cs : List Char) : Option Nat :=
  match cs with
  | 'x' :: a :: b :: _ => if isHexDigit a && isHexDigit b then some 3 else none
  | 'u' :: '\x7b' :: rest =>
    let digits := (rest.takeWhile isHexDigit).length
    if digits != 0 && (rest.drop digits).head? == some '\x7d' then some (digits + 3) else none
  | 'u' :: a :: b :: c :: d :: _ => if [a, b, c, d].all isHexDigit then some 5 else none
  | c :: _ => if c == 'x' || c == 'u' then none else some 1
  | [] => none

/-- The length of a string up to its closing quote; `skip` characters belong to an escape. -/
def stringTail? : (skip : Nat) → List Char → Option Nat
  | _, [] => none
  | skip + 1, _ :: cs => (stringTail? skip cs).map (· + 1)
  | 0, c :: cs =>
    if c == '"' then some 1
    else if c == '\\' then do
      let n ← escapeLength? cs
      return (← stringTail? n cs) + 1
    else (stringTail? 0 cs).map (· + 1)

def stringLength? (cs : List Char) : Option Nat :=
  match cs with
  | '"' :: rest => (stringTail? 0 rest).map (· + 1)
  | c :: '"' :: rest => if c == 'b' || c == 'c' then (stringTail? 0 rest).map (· + 2) else none
  | _ => none

def upTo? (closing : List Char) : List Char → Option Nat
  | [] => none
  | c :: cs =>
    if closing.isPrefixOf (c :: cs) then some closing.length
    else (upTo? closing cs).map (· + 1)

/-- The length of a raw string at the front: it ends at a quote with as many hashes as before the
    first one. -/
def rawStringLength? (cs : List Char) : Option Nat :=
  let lead :=
    match cs with
    | c :: 'r' :: _ => if c == 'b' || c == 'c' then 1 else 0
    | _ => 0
  match cs.drop lead with
  | 'r' :: rest =>
    let hashes := (rest.takeWhile (· == '#')).length
    match rest.drop hashes with
    | '"' :: body => (upTo? ('"' :: List.replicate hashes '#') body).map (· + lead + 1 + hashes + 1)
    | _ => none
  | _ => none

def opensRawString (cs : List Char) : Bool :=
  let cs :=
    match cs with
    | c :: 'r' :: rest => if c == 'b' || c == 'c' then 'r' :: rest else cs
    | _ => cs
  match cs with
  | 'r' :: rest => (rest.dropWhile (· == '#')).head? == some '"'
  | _ => false

def opensString (cs : List Char) : Bool :=
  match cs with
  | '"' :: _ => true
  | c :: '"' :: _ => c == 'b' || c == 'c'
  | _ => false

/-- The length of a character literal at the front: at most one character or escape between
    quotes. -/
def charLength? (cs : List Char) : Option Nat :=
  let lead := if cs.head? == some 'b' then 1 else 0
  match cs.drop lead with
  | '\'' :: '\'' :: _ => some (lead + 2)
  | '\'' :: '\\' :: rest => do
    let n ← escapeLength? rest
    if (rest.drop n).head? == some '\'' then return lead + n + 3 else none
  | '\'' :: _ :: '\'' :: _ => some (lead + 3)
  | _ => none

/-! ## Operators -/

/-- The marks of more than one character, longer ones before their beginnings. -/
def longMarks : List String :=
  ["<<=", ">>=", "...", "..=", "&&", "||", "<<", ">>", "+=", "-=", "*=", "/=", "%=", "^=", "&=",
   "|=", "==", "!=", ">=", "<=", "=>", "..", "::"]

/-- The mark at the front: the longest of several characters, or else one character. -/
def markOf (cs : List Char) : String :=
  match longMarks.find? fun m => m.toList.isPrefixOf cs with
  | some m => m
  | none => String.ofList (cs.take 1)

/-! ## Token trees -/

/-- What a dollar sign means in a token tree. -/
inductive DollarRule where
  /-- It is a token like any other. -/
  | plain
  /-- It marks a variable, which may have a kind, or a repetition. -/
  | matched
  /-- It marks a variable or a repetition. -/
  | substituted

def isTreeMark (c : Char) : Bool := "+-*/%^!&|<>=@.,;:#?'".toList.contains c

def closing? (c : Char) : Option Char :=
  if c == '(' then some ')'
  else if c == '[' then some ']'
  else if c == '\x7b' then some '\x7d'
  else none

/-- The length of the comment at the front, none if there is none or it has no end. -/
def commentLength? (cs : List Char) : Option Nat :=
  match cs with
  | '/' :: '/' :: rest => some (2 + (rest.takeWhile (· != '\n')).length)
  | '/' :: '*' :: rest => (Cursor.blockLength 1 rest).map (· + 2)
  | _ => none

/-- The length of the token at the front, brackets and dollar signs apart. White space counts as
    a token here. -/
def tokenLength? (cs : List Char) : Option Nat :=
  match cs with
  | [] => none
  | c :: rest =>
    if Cursor.isSpace c then some 1
    else if c == '/' && rest.head?.any (fun d => d == '/' || d == '*') then commentLength? cs
    else if opensRawString cs then rawStringLength? cs
    else if opensString cs then stringLength? cs
    else
      match charLength? cs with
      | some n => some n
      | none =>
        if Parser.wordLength cs != 0 then some (Parser.wordLength cs)
        else
          match floatLength? cs <|> integerLength? cs with
          | some n => some n
          | none => if isTreeMark c then some 1 else none

def variableLength? (cs : List Char) : Option Nat :=
  match cs with
  | '$' :: c :: rest =>
    if c.isAlpha || c == '_' then some (2 + (rest.takeWhile Text.isNameContinue).length) else none
  | _ => none

def fragmentKinds : List String :=
  ["block", "expr", "expr_2021", "ident", "item", "lifetime", "literal", "meta", "pat",
   "pat_param", "path", "stmt", "tt", "ty", "vis"]

/-- Whether a colon that follows a variable is followed by a kind; without a colon there is nothing
    to check. -/
def isKindFine (cs : List Char) : Bool :=
  match cs.dropWhile Cursor.isSpace with
  | ':' :: ':' :: _ => true
  | ':' :: rest =>
    let rest := rest.dropWhile Cursor.isSpace
    fragmentKinds.contains (String.ofList (rest.take (Parser.wordLength rest)))
  | _ => true

/-- The length of what ends a repetition: any separator, and how often it repeats. -/
def repetitionEnd? (cs : List Char) : Option Nat :=
  let separator := (cs.takeWhile fun c => c != '+' && c != '*' && c != '?').length
  if separator < cs.length then some (separator + 1) else none

/-- The length of a token tree after its opening bracket. The brackets that are still due are given
    innermost first, and each tells whether it ends a repetition. There are `bound` tokens at
    most. -/
def treeTail? (dollar : DollarRule) :
    (bound : Nat) → (due : List (Char × Bool)) → List Char → Option Nat
  | 0, _, _ => none
  | _, [], _ => some 0
  | _, _, [] => none
  | bound + 1, (closing, repeats) :: due, c :: cs =>
    if c == closing then do
      let n ← if repeats then repetitionEnd? cs else some 0
      return (← treeTail? dollar bound due (cs.drop n)) + n + 1
    else
      match closing? c with
      | some inner =>
        (treeTail? dollar bound ((inner, false) :: (closing, repeats) :: due) cs).map (· + 1)
      | none =>
        let continueBy (n : Nat) : Option Nat := do
          return (← treeTail? dollar bound ((closing, repeats) :: due) ((c :: cs).drop n)) + n
        if c == '$' then
          match dollar, variableLength? (c :: cs) with
          | .plain, _ => continueBy 1
          | .substituted, some n => continueBy n
          | .matched, some n => if isKindFine ((c :: cs).drop n) then continueBy n else none
          | _, none =>
            let blank := (cs.takeWhile Cursor.isSpace).length
            if (cs.drop blank).head? == some '(' then do
              let n := blank + 1
              return (← treeTail? dollar bound ((')', true) :: (closing, repeats) :: due)
                (cs.drop n)) + n + 1
            else none
        else do continueBy (← tokenLength? (c :: cs))

def treeLength? (dollar : DollarRule) (cs : List Char) : Option Nat :=
  match cs with
  | c :: rest => do
    let closing ← closing? c
    return (← treeTail? dollar (rest.length + 1) [(closing, false)] rest) + 1
  | [] => none

namespace Parser

def tokenTree : Parser Unit := token "token_tree" true (treeLength? .plain)

def stringLiteral : Parser Unit := token "string_literal" true stringLength?

def integerLiteral : Parser Unit := token "integer_literal" true integerLength?

def numberLiteral : Parser Unit := (token "float_literal" true floatLength?).or integerLiteral

def booleanLiteral : Parser Unit := wordAs "boolean_literal" fun w => w == "true" || w == "false"

def literal : Parser Unit := do
  let cs ← ahead
  if opensRawString cs then token "raw_string_literal" true rawStringLength?
  else if opensString cs then stringLiteral
  else if (charLength? cs).isSome then token "char_literal" true charLength?
  else if cs.head?.any Char.isDigit then numberLiteral
  else booleanLiteral

def isLiteral : Parser Bool := do
  let cs ← ahead
  let word := String.ofList (cs.take (wordLength cs))
  return opensRawString cs || opensString cs || (charLength? cs).isSome ||
    cs.head?.any Char.isDigit || word == "true" || word == "false"

def aheadMark : Parser String := do
  return markOf (← ahead)

end Parser

end RustScript.Grammar
