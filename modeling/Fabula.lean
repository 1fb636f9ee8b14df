import Fabula.Pattern.Reader
import Fabula.Compiler
import Fabula.Content.Stored
import Fabula.Proofs.Grammar.Reduction
import Fabula.Proofs.Grammar.Enumeration
import Fabula.Proofs.Grammar.Decision
import Fabula.Proofs.Grammar.Layers
import Fabula.Proofs.Grammar.Unambiguous
import Fabula.Proofs.Logic.Unambiguous
import Fabula.Proofs.Content.Linking
import Fabula.Proofs.Grammar.Reading
import Fabula.Proofs.Logic.Printing
import Fabula.Proofs.Logic.RoundTrip
import Fabula.Proofs.Logic.Footprint
import Fabula.Proofs.Grammar.Visiting
import Fabula.Proofs.Grammar.Recognition
import Fabula.Proofs.Content.Shape
import Fabula.Proofs.Markup.Preservation
import Fabula.Proofs.Scan.Tiling
import Fabula.Proofs.Limits
import Fabula.Proofs.Markup.Leaves
import Fabula.Proofs.Markup.Fidelity
import Fabula.Proofs.Scan.LineEnds
import Fabula.Proofs.Markup.LineEnds
import Fabula.Proofs.Content.LineEnds
import Fabula.Proofs.Grammar.Prediction
import Fabula.Proofs.Content.Relinking
import Fabula.Proofs.Markup.Spans
import Fabula.Proofs.Content.Coverage
import Fabula.Proofs.Markup.NormalForm
import Fabula.Proofs.Grammar.Viability
import Fabula.Proofs.Grammar.Sorting
import Fabula.Proofs.Logic.Words
import Fabula.Proofs.Logic.Sorts
import Fabula.Proofs.Logic.Parentheses
import Fabula.Proofs.Scan.Progress
import Fabula.Proofs.Scan.Boundaries
import Fabula.Proofs.Logic.Sequencing
import Fabula.Proofs.Logic.Renaming
import Fabula.Proofs.Grammar.Recasting
import Fabula.Proofs.Content.RawScript
import Fabula.Proofs.Logic.Failure
import Fabula.Proofs.Scan.Strictness
import Fabula.Proofs.Scan.Blanks
import Fabula.Proofs.Grammar.Displacement
import Fabula.Proofs.Logic.Lexing
import Fabula.Proofs.Logic.Spacing
import Fabula.Proofs.Grammar.Validation
import Fabula.Proofs.Markup.Depth
import Fabula.Proofs.Markup.Ledger
import Fabula.Proofs.Grammar.Constituents
import Fabula.Proofs.Grammar.Ambiguity
import Fabula.Proofs.Grammar.Construction
import Fabula.Proofs.Grammar.Arena
import Fabula.Proofs.Grammar.Mirroring
import Fabula.Proofs.Grammar.StackReduction
