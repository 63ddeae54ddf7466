import Forthlet.Main
import Forthlet.Proofs.Block
import Forthlet.Proofs.Conduct
import Forthlet.Proofs.Execution
import Forthlet.Proofs.Soundness
import Forthlet.Proofs.Outline
import Forthlet.Proofs.CellRange
import Forthlet.Proofs.Invariant
import Forthlet.Proofs.Range
import Forthlet.Proofs.Compilation
import Forthlet.Proofs.Session
import Forthlet.Proofs.Grammar
import Forthlet.Proofs.Vocabulary
import Forthlet.Proofs.Refinement
import Forthlet.Proofs.Acceptance
import Forthlet.Proofs.Lasting
import Forthlet.Proofs.Editing
import Forthlet.Proofs.Growth
import Forthlet.Proofs.Binding
import Forthlet.Proofs.Targets
import Forthlet.Proofs.Moments
import Forthlet.Proofs.Journaling
import Forthlet.Proofs.Recovery
import Forthlet.Proofs.Scanning
import Forthlet.Proofs.Spacing
import Forthlet.Proofs.Lines
import Forthlet.Proofs.Bounds
import Forthlet.Proofs.Separation
import Forthlet.Proofs.Agreement
import Forthlet.Proofs.Following
import Forthlet.Proofs.Twins
import Forthlet.Proofs.Room
import Forthlet.Proofs.Underneath
import Forthlet.Proofs.Naming
import Forthlet.Proofs.Inlines
import Forthlet.Proofs.Factoring
import Forthlet.Proofs.Printing
import Forthlet.Proofs.Spelling
import Forthlet.Proofs.Calling
import Forthlet.Proofs.Dialogue
import Forthlet.Proofs.Replay
import Forthlet.Proofs.Digits
import Forthlet.Proofs.Arithmetic
import Forthlet.Proofs.Overflow
import Forthlet.Proofs.ReadBack
import Forthlet.Proofs.Capitals
import Forthlet.Proofs.Diagrams
import Forthlet.Proofs.Lookup
import Forthlet.Proofs.Effects
import Forthlet.Proofs.Counter
import Forthlet.Proofs.Euclid
import Forthlet.Proofs.Factorial
import Forthlet.Proofs.Wording
import Forthlet.Proofs.Verdicts
