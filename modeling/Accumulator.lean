import Accumulator.Main
import Accumulator.Proofs.Abreast
import Accumulator.Proofs.Adder
import Accumulator.Proofs.Assembling
import Accumulator.Proofs.Completion
import Accumulator.Proofs.Dialects
import Accumulator.Proofs.Dispatching
import Accumulator.Proofs.Hearing
import Accumulator.Proofs.Inserting
import Accumulator.Proofs.Interrupting
import Accumulator.Proofs.Ledger
import Accumulator.Proofs.Panels
import Accumulator.Proofs.Playbacks
import Accumulator.Proofs.Playing
import Accumulator.Proofs.Reentry
import Accumulator.Proofs.Refusing
import Accumulator.Proofs.Schedule
import Accumulator.Proofs.Tracing
import Accumulator.Proofs.Tabulating
import Accumulator.Proofs.Truncating
import Accumulator.Proofs.Unfailing
import Accumulator.Script
import Accumulator.Word.Operand
import Accumulator.Workbench.Buttons
import Accumulator.Workbench.Examples
import Accumulator.Proofs.Modular
import Accumulator.Proofs.Literals
import Accumulator.Proofs.Grammar
import Accumulator.Proofs.Lines
import Accumulator.Proofs.Cells
import Accumulator.Proofs.FrontEnds
import Accumulator.Proofs.Replaying
