import RiscvLowering.Main
import RiscvLowering.Proofs.Accounts
import RiscvLowering.Proofs.Calls
import RiscvLowering.Proofs.Commands
import RiscvLowering.Proofs.Composition
import RiscvLowering.Proofs.ControlFlow
import RiscvLowering.Proofs.Failures
import RiscvLowering.Proofs.FirstError
import RiscvLowering.Proofs.Gaps
import RiscvLowering.Proofs.Growth
import RiscvLowering.Proofs.Integrity
import RiscvLowering.Proofs.Listings
import RiscvLowering.Proofs.RoundTrip
import RiscvLowering.Proofs.Schedule
import RiscvLowering.Proofs.Tables
import RiscvLowering.Proofs.Likeness
import RiscvLowering.Proofs.LockStep
import RiscvLowering.Proofs.Renumbering
import RiscvLowering.Proofs.Building
import RiscvLowering.Proofs.Built
import RiscvLowering.Proofs.References
import RiscvLowering.Proofs.Computation
import RiscvLowering.Proofs.Spilling
import RiscvLowering.Proofs.Reading
import RiscvLowering.Proofs.Bases
import RiscvLowering.Proofs.Splitting
import RiscvLowering.Proofs.Placement
import RiscvLowering.Proofs.Descriptions
import RiscvLowering.Proofs.Texts
