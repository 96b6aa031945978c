/-
  Temporaries.

  The state has all that were drawn, and no emission takes one back, a failed one included
  (`Draws`). The stems have no digits, so that the number can be read off the name
  (`digitsOf_temporary`), and identifiers have no dollar sign.
-/
import RustScript.Proofs.Context.Tree
import RustScript.Proofs.Scope.Fresh

namespace RustScript.Emit

variable {stem stem' : String} {name : String}

namespace Draws

variable {before names : List String}

theorem suffix (h : Draws before names) : before <:+ names := by
  induction h with
  | none => exact List.suffix_rfl
  | draw _ _ ih => exact ih.trans (List.suffix_cons _ _)

end Draws

end RustScript.Emit
