import ConcreteSyntax.Files
import ConcreteSyntax.Main
import ConcreteSyntax.Proofs.Lossless
import ConcreteSyntax.Proofs.Positions
import ConcreteSyntax.Proofs.Limits
import ConcreteSyntax.Proofs.Rejections
import ConcreteSyntax.Proofs.DerivationTrees
import ConcreteSyntax.Proofs.Hcl.Heredocs
import ConcreteSyntax.Proofs.Hcl.Lines
import ConcreteSyntax.Proofs.Java.Words
import ConcreteSyntax.Proofs.Termination
import ConcreteSyntax.Proofs.Json.Completeness
import ConcreteSyntax.Proofs.Json.Viability
import ConcreteSyntax.Proofs.Document.Strategies
import ConcreteSyntax.Proofs.Document.RoundTrip
import ConcreteSyntax.Proofs.Document.Strings
import ConcreteSyntax.Proofs.Extraction
import ConcreteSyntax.Proofs.Preorder
import ConcreteSyntax.Proofs.Document.Layouts
import ConcreteSyntax.Proofs.Program
import ConcreteSyntax.Proofs.Workshop
import ConcreteSyntax.Proofs.Command.Spelling
import ConcreteSyntax.Proofs.Command.ErrorLines
