/-
  Concrete syntax trees.

  A node covers a stretch of the source and may have a role in its parent, its field. Punctuation
  and keywords are nodes without a name. Text that fits no rule stands under a node `ERROR`, and
  what had to be there and is not is a missing node.
-/
import RustScript.Error
import RustScript.Text.Utf8

namespace RustScript.Source

structure Node where
  kind : String
  start : Nat
  stop : Nat
  isNamed : Bool := true
  isMissing : Bool := false
  field : Option String := none
  children : List Node := []

abbrev Bytes := List UInt8

namespace Node

/-- Whether the node itself marks a mistake in the source. -/
def isFlaw (n : Node) : Bool := n.kind == "ERROR" || n.isMissing

def isComment (n : Node) : Bool := n.kind == "line_comment" || n.kind == "block_comment"

mutual

def hasFlaw : Node → Bool
  | ⟨kind, _, _, _, isMissing, _, children⟩ => kind == "ERROR" || isMissing || anyFlaw children

/-- Whether there is a mistake in one of several nodes. -/
def anyFlaw : List Node → Bool
  | [] => false
  | n :: ns => n.hasFlaw || anyFlaw ns

end

mutual

/-- The first mistake below the node, in the order of the source; the node itself if there is
    none. -/
def flaw (n : Node) : Node :=
  match n with
  | ⟨_, _, _, _, _, _, children⟩ => (firstFlaw? children).getD n

def firstFlaw? : List Node → Option Node
  | [] => none
  | n :: ns => if n.isFlaw then some n else if n.hasFlaw then some n.flaw else firstFlaw? ns

end

end Node

/-- The line and the column of an offset, both from zero; columns count bytes. -/
def position (bytes : Bytes) (offset : Nat) : Nat × Nat :=
  let before := bytes.take offset
  ((before.filter (· == 10)).length, (before.reverse.takeWhile (· != 10)).length)

/-- Fails if the tree holds a mistake. The first `hidden` lines of the text are not the user's. -/
def check (bytes : Bytes) (hidden : Nat) (root : Node) : Except Error Unit :=
  if root.hasFlaw then
    let n := root.flaw
    let (line, column) := position bytes n.start
    .error (.parse (if n.isMissing then .missing n.kind else .malformed) (line - hidden) column)
  else .ok ()

end RustScript.Source
