/-
  Nodes and what they read as.

  A phrase is a node together with its readings: as an expression, as a pattern and as a block. Most
  nodes have one sensible reading and fail in the others. A phrase is built from the phrases of the
  children, so that a reading of a node can look at any reading below it.
-/
import RustScript.Source.Node
import RustScript.Syntax.Tree

namespace RustScript.Source

mutual

/-- A node without readings of its own, over children that have theirs. -/
structure Parts where
  kind : String
  start : Nat
  stop : Nat
  isNamed : Bool
  field : Option String
  children : List Phrase

/-- A node and what it reads as. -/
structure Phrase where
  parts : Parts
  asExpr : Except Error Expr
  asPat : Except Error Pat
  asBlock : Except Error (List Stmt)

end

namespace Phrase

def kind (p : Phrase) : String := p.parts.kind

def isNamed (p : Phrase) : Bool := p.parts.isNamed

end Phrase

def isComment (kind : String) : Bool :=
  kind == "line_comment" || kind == "block_comment" || kind == "comment"

namespace Parts

def text (bytes : Bytes) (p : Parts) : Except Error String :=
  match Text.decode? ((bytes.drop p.start).take (p.stop - p.start)) with
  | some text => .ok text
  | none => .error (.fault .cutCharacter)

/-- The children that count: named, and neither comments nor attributes nor labels. -/
def named (p : Parts) : List Phrase :=
  p.children.filter fun c =>
    c.isNamed && !isComment c.kind && c.kind != "attribute_item" && c.kind != "label"

def firstNamed (p : Parts) : Except Error Phrase :=
  match p.named with
  | c :: _ => .ok c
  | [] => .error (.fault .missingElement)

def child? (p : Parts) (field : String) : Option Phrase :=
  p.children.find? fun c => c.parts.field == some field

def child (p : Parts) (field : String) : Except Error Phrase :=
  match p.child? field with
  | some c => .ok c
  | none => .error (.refusal (.missingPart p.kind field))

def childrenBut (p : Parts) (field : String) : List Phrase :=
  p.children.eraseP fun c => c.parts.field == some field

def childOf (p : Parts) (kind : String) : Except Error Phrase :=
  match p.children.find? fun c => c.kind == kind with
  | some c => .ok c
  | none => .error (.refusal (.missingPart p.kind kind))

def has (p : Parts) (kind : String) : Bool := p.children.any fun c => c.kind == kind

def textIn (bytes : Bytes) (p : Parts) (field : String) : Except Error String := do
  (← p.child field).parts.text bytes

def textIn? (bytes : Bytes) (p : Parts) (field : String) : Except Error (Option String) :=
  match p.child? field with
  | some c => do return some (← c.parts.text bytes)
  | none => .ok none

def label (bytes : Bytes) (p : Parts) : Except Error (Option String) :=
  match p.children.find? fun c => c.kind == "label" with
  | some c => do return some (← c.parts.text bytes)
  | none => .ok none

end Parts

def patternsAmong (children : List Phrase) : List Phrase :=
  children.filter fun c => c.kind == "_" || (c.isNamed && !isComment c.kind)

/-- Readings of a sequence, of which the first failure counts. A search that finds nothing is told
    apart inside a sequence. -/
def sequence {α : Type} : List (Except Error α) → Except Error (List α)
  | [] => .ok []
  | .ok a :: rest => do return a :: (← sequence rest)
  | .error (.fault .notFound) :: _ => .error (.fault .notFoundInSequence)
  | .error e :: _ => .error e

end RustScript.Source
