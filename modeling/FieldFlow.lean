import FieldFlow.Command.Memory
import FieldFlow.Main
import FieldFlow.Proofs.Encoding
import FieldFlow.Proofs.Keys
import FieldFlow.Proofs.Cycle
import FieldFlow.Proofs.Work
import FieldFlow.Proofs.Pool
import FieldFlow.Proofs.Edits
import FieldFlow.Proofs.Composition
import FieldFlow.Proofs.Replay
import FieldFlow.Proofs.Deferral
import FieldFlow.Proofs.Building
import FieldFlow.Proofs.Direct
import FieldFlow.Proofs.Meaning
import FieldFlow.Proofs.Execution
import FieldFlow.Proofs.Alternatives
import FieldFlow.Proofs.Branches
import FieldFlow.Proofs.Settlement
import FieldFlow.Proofs.Finalization
import FieldFlow.Proofs.Completion
import FieldFlow.Proofs.Runs
import FieldFlow.Proofs.Recursion
import FieldFlow.Proofs.Agreement
import FieldFlow.Proofs.Memoization
import FieldFlow.Proofs.Simulation
import FieldFlow.Proofs.Locality
import FieldFlow.Proofs.Presentation
import FieldFlow.Proofs.Monotonicity
import FieldFlow.Proofs.Interning
import FieldFlow.Proofs.Regimes
import FieldFlow.Proofs.Frames
import FieldFlow.Proofs.Application
import FieldFlow.Proofs.Clients
import FieldFlow.Proofs.Canonicity
import FieldFlow.Proofs.Associativity
import FieldFlow.Proofs.Ranking
import FieldFlow.Proofs.Stepwise
import FieldFlow.Proofs.CrossProduct
import FieldFlow.Proofs.Joining
import FieldFlow.Proofs.Semilattice
import FieldFlow.Proofs.Operands
import FieldFlow.Proofs.Numerals
import FieldFlow.Proofs.Acceptance
import FieldFlow.Proofs.Accounting
import FieldFlow.Proofs.Versions
import FieldFlow.Proofs.Validity
import FieldFlow.Proofs.Reports
import FieldFlow.Proofs.Resets
import FieldFlow.Proofs.Flatness
import FieldFlow.Proofs.Inline
