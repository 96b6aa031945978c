import RustScript.Main
import RustScript.Proofs.Emit.Awaits
import RustScript.Proofs.Emit.Catches
import RustScript.Proofs.Emit.Jumps
import RustScript.Proofs.Layout.Content
import RustScript.Proofs.Pattern.Guards
import RustScript.Proofs.Program.Balanced
import RustScript.Proofs.Program.Order
import RustScript.Proofs.Program.Registration
import RustScript.Proofs.Program.Sources
import RustScript.Proofs.Twin.Initialiser
import RustScript.Proofs.Macro.Formats
import RustScript.Proofs.Pattern.Agreement
import RustScript.Proofs.Macro.Stretches
import RustScript.Proofs.Pattern.Rests
import RustScript.Proofs.Emit.Parts
import RustScript.Proofs.Emit.Braces
import RustScript.Proofs.Idiom.Erased
import RustScript.Proofs.Macro.Messages
import RustScript.Proofs.Macro.Rendering
import RustScript.Proofs.Literal.Raw
import RustScript.Proofs.Literal.Spelling
import RustScript.Proofs.Scope.Closing
import RustScript.Proofs.Source.Flaws
import RustScript.Proofs.Literal.Integers
import RustScript.Proofs.Program.Parameters
import RustScript.Proofs.Pattern.Variants
import RustScript.Proofs.Scope.Helpers
import RustScript.Proofs.Program.Skipped
import RustScript.Proofs.Engine.Result
import RustScript.Proofs.Source.Paths
import RustScript.Proofs.Emit.Modules
import RustScript.Proofs.Context.Temporaries
