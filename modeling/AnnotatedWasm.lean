import AnnotatedWasm.Main
import AnnotatedWasm.Proofs.Calls.Once
import AnnotatedWasm.Proofs.Exec.Functions
import AnnotatedWasm.Proofs.Files.Outputs
import AnnotatedWasm.Proofs.Integer.Choice
import AnnotatedWasm.Proofs.Integer.Flooring
import AnnotatedWasm.Proofs.Integer.Literals
import AnnotatedWasm.Proofs.Layout.BlankLines
import AnnotatedWasm.Proofs.Layout.Quotes
import AnnotatedWasm.Proofs.LineNumbers
import AnnotatedWasm.Proofs.Listing.Faithful
import AnnotatedWasm.Proofs.Lowering.Features
import AnnotatedWasm.Proofs.Lowering.Order
import AnnotatedWasm.Proofs.Printing.Precedence
import AnnotatedWasm.Proofs.Progress.Termination
import AnnotatedWasm.Proofs.Range.Elements
import AnnotatedWasm.Proofs.Spans.Sound
import AnnotatedWasm.Proofs.Wasm.Locals
import AnnotatedWasm.Proofs.Wasm.Strings
