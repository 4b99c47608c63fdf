import SsaFold.Main
import SsaFold.Proofs.Simplify.Safety
import SsaFold.Proofs.Related
import SsaFold.Proofs.Text.Header
import SsaFold.Proofs.Text.Reader
import SsaFold.Proofs.Text.Draft
import SsaFold.Proofs.Module.Constants
import SsaFold.Proofs.Text.Lookup
import SsaFold.Proofs.Text.Drafting
import SsaFold.Proofs.Text.Headers
import SsaFold.Proofs.Text.Bodies
import SsaFold.Proofs.Text.Lawful
import SsaFold.Proofs.Text.Faults
import SsaFold.Proofs.Text.Lexing
import SsaFold.Proofs.Text.Spelling
import SsaFold.Proofs.Text.Chapter
import SsaFold.Proofs.Text.Layout
import SsaFold.Proofs.Text.Legible
import SsaFold.Proofs.Text.Naming
import SsaFold.Proofs.Text.Writing
import SsaFold.Proofs.Text.Printing
import SsaFold.Proofs.Text.Progress
import SsaFold.Proofs.Text.Reading
import SsaFold.Proofs.Text.RoundTrip
import SsaFold.Proofs.Module.Check
import SsaFold.Proofs.Module.Verdict
import SsaFold.Proofs.Module.OneByOne
import SsaFold.Proofs.Module.Erasing
import SsaFold.Proofs.Module.UseLists
import SsaFold.Proofs.Simplify.Verification
import SsaFold.Proofs.Simplify.Calls
import SsaFold.Proofs.Simplify.Matches
import SsaFold.Proofs.Simplify.OneSweep
import SsaFold.Proofs.Simplify.Width
import SsaFold.Proofs.Mirror.Pairing
import SsaFold.Proofs.Mirror.Simplify
import SsaFold.Proofs.Mirror.Print
import SsaFold.Proofs.Mirror.Program
import SsaFold.Proofs.Mirror.Pipeline
import SsaFold.Proofs.Mirror.Bare
import SsaFold.Proofs.Simplify.Locality
import SsaFold.Proofs.Simplify.Independence
import SsaFold.Proofs.Simplify.AnyOrder
import SsaFold.Proofs.Text.Sites
import SsaFold.Proofs.Text.OneBody
import SsaFold.Proofs.Text.Slots
import SsaFold.Proofs.Text.Forward
import SsaFold.Proofs.Text.OneMeaning
import SsaFold.Proofs.Text.ErrorLines
import SsaFold.Proofs.Text.LabelLines
import SsaFold.Proofs.Text.Literals
import SsaFold.Proofs.CallCount
import SsaFold.Proofs.Text.Passages
import SsaFold.Proofs.Text.Transcript
import SsaFold.Proofs.Text.Afterwards
import SsaFold.Proofs.Text.InStep
import SsaFold.Proofs.Text.Distinct
import SsaFold.Proofs.Text.References
import SsaFold.Proofs.Text.Room
import SsaFold.Proofs.Text.AcceptedLines
import SsaFold.Proofs.Text.AcceptedTexts
import SsaFold.Proofs.Text.Rereading
