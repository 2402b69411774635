import Straightline.Compile
import Straightline.Diagnostic.Report
import Straightline.IR.Builder
import Straightline.Proofs.Selection.Steps
import Straightline.Proofs.Semantics.Code
import Straightline.Proofs.Semantics.Image
import Straightline.Proofs.Semantics.Machine
import Straightline.Proofs.Semantics.Program
import Straightline.Target.Description
import Straightline.Proofs.Selection.Entry
import Straightline.Proofs.Selection.Bookkeeping
import Straightline.Proofs.Selection.Layout
import Straightline.Proofs.Selection.Simulation
import Straightline.Proofs.Selection.Emission
import Straightline.Proofs.Selection.Function
import Straightline.Proofs.Lowering.Flatten
import Straightline.Proofs.Lowering.Clean
import Straightline.Proofs.Lowering.Meaning
import Straightline.Proofs.Selection.Occupancy
import Straightline.Proofs.Fragment.Expressions
import Straightline.Proofs.Fragment.Statements
import Straightline.Proofs.Fragment.Programs
import Straightline.Proofs.Reporting
import Straightline.Proofs.Lowering.Abandon
import Straightline.Proofs.Lowering.Order
import Straightline.Proofs.Selection.Faults
import Straightline.Proofs.Lowering.Modules
import Straightline.Proofs.Lowering.Nesting
import Straightline.Proofs.Recovery
import Straightline.Proofs.Selection.Linking
import Straightline.Proofs.Selection.Activation
import Straightline.Proofs.Execution
import Straightline.Proofs.Lowering.Consistency
import Straightline.Proofs.Encoding
import Straightline.Proofs.Selection.Convention
import Straightline.Proofs.Lowering.Signatures
import Straightline.Proofs.Independence
import Straightline.Proofs.Lowering.Attempt
import Straightline.Proofs.Text.Reading
import Straightline.Proofs.Dump.Operations
import Straightline.Proofs.Dump.Lines
import Straightline.Proofs.Dump.Identity
import Straightline.Proofs.Immediates
import Straightline.Proofs.Selection.Accounting
import Straightline.Proofs.Lowering.Reads
import Straightline.Proofs.Lowering.Reference
import Straightline.Proofs.Lowering.Contributions
import Straightline.Proofs.Selection.Registers
import Straightline.Proofs.Description.Layout
import Straightline.Proofs.Description.Reading
import Straightline.Proofs.Description.Writing
import Straightline.Proofs.Building.Steps
import Straightline.Proofs.Selection.Slots
import Straightline.Proofs.Building.Histories
import Straightline.Proofs.Building.Columns
import Straightline.Proofs.Lowering.Recording
import Straightline.Proofs.Selection.Recording
