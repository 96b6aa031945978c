/-
  Parsers that build concrete syntax trees.

  A parser reads from a cursor and leaves nodes behind. A comment is a node and belongs to whatever
  is being read when the next token is taken. A failure says how far the reading got, and of two
  failed alternatives the further one counts.
-/
import RustScript.Source.Node

namespace RustScript.Grammar

open Source (Node)

/-- What is left of the source, and where it begins in bytes. The bound, which is never less than
    the number of characters left, limits how often something can be repeated. -/
structure Cursor where
  rest : List Char
  offset : Nat := 0
  bound : Nat

namespace Cursor

def advance : Nat → Cursor → Cursor
  | 0, c => c
  | _, ⟨[], offset, bound⟩ => ⟨[], offset, bound⟩
  | n + 1, ⟨ch :: rest, offset, bound⟩ => advance n ⟨rest, offset + ch.utf8Size, bound⟩

def isSpace (c : Char) : Bool := c == ' ' || (0x09 ≤ c.toNat && c.toNat ≤ 0x0D)

/-- The length of a line comment after its two slashes. A line of documentation takes its line
    feed along. -/
def lineLength (cs : List Char) : Nat :=
  let content := (cs.takeWhile (· != '\n')).length
  let isDoc :=
    match cs with
    | '!' :: _ => true
    | '/' :: '/' :: _ => false
    | '/' :: _ => true
    | _ => false
  if isDoc && content < cs.length then content + 1 else content

/-- The length of a block comment after its opening, none when it does not end; `depth` comments
    are open. -/
def blockLength : (depth : Nat) → List Char → Option Nat
  | _, [] => none
  | depth, '*' :: '/' :: cs =>
    match depth with
    | 0 => some 2
    | 1 => some 2
    | depth + 1 => (blockLength depth cs).map (· + 2)
  | depth, '/' :: '*' :: cs => (blockLength (depth + 1) cs).map (· + 2)
  | depth, _ :: cs => (blockLength depth cs).map (· + 1)

/-- A comment at the cursor: its kind and its length, or none at all. An unfinished comment is an
    error. -/
def comment? (c : Cursor) : Except Nat (Option (String × Nat)) :=
  match c.rest with
  | '/' :: '/' :: cs => .ok (some ("line_comment", lineLength cs + 2))
  | '/' :: '*' :: cs =>
    match blockLength 1 cs with
    | some n => .ok (some ("block_comment", n + 2))
    | none => .error c.offset
  | _ => .ok none

/-- Skips white space and comments, of which there are `bound` at most, and gives the comments, the
    last one first. -/
def skip (comments : List Node) : (bound : Nat) → Cursor → Except Nat (List Node × Cursor)
  | 0, c => .ok (comments, c)
  | bound + 1, c => do
    let c := c.advance (c.rest.takeWhile isSpace).length
    match ← c.comment? with
    | none => return (comments, c)
    | some (kind, length) =>
      let after := c.advance length
      skip ({ kind, start := c.offset, stop := after.offset } :: comments) bound after

end Cursor

/-- The state of a parser: the cursor and the nodes left so far, the last one first. -/
structure State where
  cursor : Cursor
  nodes : List Node := []

/-- A parser. A failure tells the offset that was reached. -/
def Parser (α : Type) : Type := State → Except Nat (α × State)

namespace Parser

instance : Monad Parser where
  pure a s := .ok (a, s)
  bind p f s :=
    match p s with
    | .ok (a, s) => f a s
    | .error offset => .error offset

def fail {α : Type} : Parser α := fun s => .error s.cursor.offset

def or {α : Type} (p q : Parser α) : Parser α :=
  fun s =>
    match p s with
    | .ok r => .ok r
    | .error i =>
      match q s with
      | .ok r => .ok r
      | .error j => .error (max i j)

def firstOf {α : Type} : List (Parser α) → Parser α
  | [] => fail
  | p :: ps => p.or (firstOf ps)

def orNothing (p : Parser Unit) : Parser Unit := p.or (pure ())

def guard (condition : Bool) : Parser Unit := if condition then pure () else fail

def ahead : Parser (List Char) :=
  fun s =>
    match s.cursor.skip [] (s.cursor.bound + 1) with
    | .ok (_, c) => .ok (c.rest, s)
    | .error offset => .error offset

def aheadAfter (n : Nat) : Parser (List Char) :=
  fun s => do
    let (_, c) ← s.cursor.skip [] (s.cursor.bound + 1)
    let c := c.advance n
    let (_, c) ← c.skip [] (c.bound + 1)
    return (c.rest, s)

def toToken : Parser Unit :=
  fun s =>
    match s.cursor.skip s.nodes (s.cursor.bound + 1) with
    | .ok (nodes, cursor) => .ok ((), ⟨cursor, nodes⟩)
    | .error offset => .error offset

def take (kind : String) (isNamed : Bool) (length : Nat) : Parser Unit :=
  fun s =>
    let after := s.cursor.advance length
    let token : Node := { kind, start := s.cursor.offset, stop := after.offset, isNamed }
    .ok ((), ⟨after, token :: s.nodes⟩)

def token (kind : String) (isNamed : Bool) (length? : List Char → Option Nat) : Parser Unit := do
  toToken
  match length? (← ahead) with
  | some length => take kind isNamed length
  | none => fail

def endOf (start : Nat) : List Node → Nat
  | [] => start
  | n :: _ => n.stop

def node (kind : String) (body : Parser Unit) : Parser Unit := do
  toToken
  fun s =>
    match body ⟨s.cursor, []⟩ with
    | .error offset => .error offset
    | .ok ((), after) =>
      let start := s.cursor.offset
      let n : Node :=
        { kind, start, stop := endOf start after.nodes, children := after.nodes.reverse }
      .ok ((), ⟨after.cursor, n :: s.nodes⟩)

/-- Gathers the last node, in the given field, and what a body leaves into one node. -/
def wrap (kind : String) (field : Option String) (body : Parser Unit) : Parser Unit :=
  fun s =>
    match s.nodes with
    | [] => .error s.cursor.offset
    | first :: before =>
      match body ⟨s.cursor, [{ first with field }]⟩ with
      | .error offset => .error offset
      | .ok ((), after) =>
        let n : Node :=
          { kind, start := first.start, stop := endOf first.start after.nodes,
            children := after.nodes.reverse }
        .ok ((), ⟨after.cursor, n :: before⟩)

def amend (f : Node → Node) : Parser Unit :=
  fun s =>
    match s.nodes with
    | [] => .error s.cursor.offset
    | n :: ns => .ok ((), ⟨s.cursor, f n :: ns⟩)

def inField (field : String) (body : Parser Unit) : Parser Unit := do
  body
  amend fun n => { n with field := some field }

def lastKind : Parser String :=
  fun s =>
    match s.nodes with
    | [] => .ok ("", s)
    | n :: _ => .ok (n.kind, s)

/-- Whether a parser would succeed here. Nothing is taken. -/
def succeeds {α : Type} (p : Parser α) : Parser Bool :=
  fun s =>
    match p s with
    | .ok _ => .ok (true, s)
    | .error _ => .ok (false, s)

def manyWithin (p : Parser Unit) : (bound : Nat) → Parser Unit
  | 0 => pure ()
  | bound + 1 => fun s =>
    match p s with
    | .error _ => .ok ((), s)
    | .ok ((), after) =>
      if after.cursor.offset == s.cursor.offset then .ok ((), s)
      else manyWithin p bound after

def many (p : Parser Unit) : Parser Unit := fun s => manyWithin p s.cursor.bound s

/-- Rounds until one says that it was the last, up to a bound. -/
def loopWithin (p : Parser Bool) : (bound : Nat) → Parser Unit
  | 0 => pure ()
  | bound + 1 => do if ← p then loopWithin p bound else pure ()

/-- Rounds until one says that it was the last. Every other round has to take something. -/
def loop (p : Parser Bool) : Parser Unit := fun s => loopWithin p (s.cursor.bound + 1) s

/-! ## Tokens -/

/-- The length of the identifier at the front. A raw one has a mark before it. -/
def wordLength (cs : List Char) : Nat :=
  let plain (cs : List Char) : Nat :=
    match cs with
    | c :: rest =>
      if c == '_' || Text.isNameStart c then 1 + (rest.takeWhile Text.isNameContinue).length else 0
    | [] => 0
  match cs with
  | 'r' :: '#' :: rest => if plain rest == 0 then 1 else 2 + plain rest
  | _ => plain cs

def aheadWord : Parser String := do
  let cs ← ahead
  return String.ofList (cs.take (wordLength cs))

def wordAfter (n : Nat) : Parser String := do
  let cs ← aheadAfter n
  return String.ofList (cs.take (wordLength cs))

def isWord (word : String) : Parser Bool := do
  return (← aheadWord) == word

def isAhead (text : String) : Parser Bool := do
  return text.toList.isPrefixOf (← ahead)

def keyword (word : String) : Parser Unit :=
  token word false fun cs =>
    if String.ofList (cs.take (wordLength cs)) == word then some word.length else none

def wordAs (kind : String) (allowed : String → Bool) : Parser Unit :=
  token kind true fun cs =>
    let word := cs.take (wordLength cs)
    if !word.isEmpty && allowed (String.ofList word) then some word.length else none

def anyWord (kind : String) : Parser Unit := wordAs kind fun _ => true

def symbol (text : String) : Parser Unit :=
  token text false fun cs => if text.toList.isPrefixOf cs then some text.length else none

def separated1 (separator : Parser Unit) (element : Parser Unit) : Parser Unit := do
  element
  many do
    separator
    element

/-- Elements with a comma between them, perhaps none, and perhaps one more comma. -/
def commaList (element : Parser Unit) : Parser Unit := do
  orNothing (separated1 (symbol ",") element)
  orNothing (symbol ",")

end Parser

end RustScript.Grammar
