import Reckoner.Expr.Print
import Reckoner.Main
import Reckoner.Proofs.Sessions.Atomicity
import Reckoner.Proofs.Written
import Reckoner.Proofs.Isolation
import Reckoner.Proofs.Sessions.Process
import Reckoner.Proofs.NameTable
import Reckoner.Proofs.Rounding
import Reckoner.Proofs.Numerals
import Reckoner.Proofs.Lexemes
import Reckoner.Proofs.Sessions.Spacing
import Reckoner.Proofs.Retyping
import Reckoner.Proofs.Failing
import Reckoner.Proofs.Positions
import Reckoner.Proofs.Sessions.Provenance
import Reckoner.Proofs.Sessions.Refusals
import Reckoner.Proofs.Editing.Offers
import Reckoner.Proofs.Sessions.Fold
import Reckoner.Proofs.Literals
import Reckoner.Proofs.ReadBack
import Reckoner.Proofs.Watched
import Reckoner.Proofs.Sessions.SignificantDigits
import Reckoner.Proofs.CallLimit
import Reckoner.Proofs.Formatting
import Reckoner.Proofs.Interaction.Keys
import Reckoner.Proofs.Interaction.Transcript
import Reckoner.Proofs.Interaction.Replay
import Reckoner.Proofs.Identifiers
import Reckoner.Proofs.Termination
import Reckoner.Proofs.Reach
import Reckoner.Proofs.Substitution
import Reckoner.Proofs.Naming
import Reckoner.Proofs.Highlighting.Readings
import Reckoner.Proofs.Highlighting.Runs
import Reckoner.Proofs.Printing.ExactText
import Reckoner.Proofs.Printing.PrefixForm
import Reckoner.Proofs.Ranking
import Reckoner.Proofs.ExactArithmetic
import Reckoner.Proofs.MonotoneSums
import Reckoner.Proofs.Sessions.Legibility
import Reckoner.Proofs.Editing.Acceptance
import Reckoner.Proofs.Editing.Buffer
import Reckoner.Proofs.Parsing.Ranges
import Reckoner.Proofs.Parsing.Descent
