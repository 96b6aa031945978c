/-
  The value of a string literal of the source language, plain, raw or of bytes.

  A raw literal ends at the last quote that is followed by its hashes and nothing else. In the
  others a backslash opens an escape, or hides a line end and the blanks that follow it.
-/
import RustScript.Error
import RustScript.Number.Reading

namespace RustScript.Literal

/-- The content of a raw literal: `r`, hashes, a quote, the content, a quote and as many hashes,
    with a `b` in front if it is made of bytes. -/
def rawContent? (cs : List Char) : Option (List Char) :=
  let cs := match cs with
    | 'b' :: cs => cs
    | cs => cs
  match cs with
  | 'r' :: cs =>
    let hashes := cs.takeWhile (· == '#')
    match cs.dropWhile (· == '#') with
    | '"' :: body =>
      let closing := '"' :: hashes
      if closing.length ≤ body.length &&
          body.drop (body.length - closing.length) == closing then
        some (body.take (body.length - closing.length))
      else none
    | _ => none
  | _ => none

/-- The letters that stand for one character after a backslash. -/
def escapeLetter? (c : Char) : Option Char :=
  if c == 'n' then some '\n'
  else if c == 't' then some '\t'
  else if c == 'r' then some '\r'
  else if c == '0' then some '\x00'
  else if c == '\\' || c == '"' || c == '\'' then some c
  else none

/-- The character whose number is written in base sixteen. Half of a surrogate pair is a fault. -/
def codePoint (digits : List Char) : Except Error Char :=
  match Reading.integer? digits with
  | some (.ofNat n) => if n.isValidChar then .ok (Char.ofNat n) else .error (.fault .badNumber)
  | _ => .error (.fault .badNumber)

def isContinuationBlank (c : Char) : Bool := c == ' ' || c == '\t' || c == '\n' || c == '\r'

/-- The text of a literal's body; `skip` characters belong to the escape just read. -/
def decodeFrom : (skip : Nat) → List Char → Except Error (List Char)
  | _, [] => .ok []
  | skip + 1, _ :: cs => decodeFrom skip cs
  | 0, c :: cs =>
    if c != '\\' then do return c :: (← decodeFrom 0 cs)
    else
      match cs with
      | [] => .error (.mistake (.unknownEscape ""))
      | e :: rest =>
        match escapeLetter? e with
        | some value => do return value :: (← decodeFrom 1 cs)
        | none =>
          if e == 'x' then do
            let value ← codePoint (rest.take 2)
            return value :: (← decodeFrom 3 cs)
          else if e == 'u' then
            if rest.contains '\x7d' then do
              let inner := rest.takeWhile (· != '\x7d')
              let value ← codePoint (inner.drop 1)
              return value :: (← decodeFrom (inner.length + 2) cs)
            else .error (.fault .badNumber)
          else if e == '\n' then
            decodeFrom (1 + (rest.takeWhile isContinuationBlank).length) cs
          else .error (.mistake (.unknownEscape (String.ofList [e])))

/-- The text between the quotes of a literal that is not raw. -/
def quotedBody? (cs : List Char) : Option (List Char) :=
  match cs with
  | quote :: rest =>
    if (quote == '"' || quote == '\'') && rest.getLast? == some quote then some rest.dropLast
    else none
  | [] => none

def decodeChars (cs : List Char) : Except Error (List Char) :=
  let cs := Text.trim cs
  match rawContent? cs with
  | some content => .ok content
  | none =>
    let cs := match cs with
      | 'b' :: cs => cs
      | cs => cs
    match quotedBody? cs with
    | some body => decodeFrom 0 body
    | none => .error (.mistake (.notAString (String.ofList cs)))

def decode (literal : String) : Except Error String := do
  return String.ofList (← decodeChars literal.toList)

end RustScript.Literal
