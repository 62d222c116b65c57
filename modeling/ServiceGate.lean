import ServiceGate.Main
import ServiceGate.Proofs.Checked.Repair
import ServiceGate.Proofs.Command.Agree
import ServiceGate.Proofs.Command.Counted
import ServiceGate.Proofs.FileTree.Moved
import ServiceGate.Proofs.Import.RoundTrip
import ServiceGate.Proofs.Import.Usage
import ServiceGate.Proofs.ObjectLiteral.Appended
import ServiceGate.Proofs.ObjectLiteral.Contents
import ServiceGate.Proofs.ObjectLiteral.Values
import ServiceGate.Proofs.Project.Collisions
import ServiceGate.Proofs.Project.Exported
import ServiceGate.Proofs.Repair.Additions
import ServiceGate.Proofs.Repair.Bound
import ServiceGate.Proofs.Repair.Cleared
import ServiceGate.Proofs.Repair.Continued
import ServiceGate.Proofs.Repair.Drifted
import ServiceGate.Proofs.Repair.Kept
import ServiceGate.Proofs.Repair.References
import ServiceGate.Proofs.Repair.Removed
import ServiceGate.Proofs.Repair.Synthesis
import ServiceGate.Proofs.Repair.Undeclared
import ServiceGate.Proofs.Report.Faithful
import ServiceGate.Proofs.Rule.Forbidden
import ServiceGate.Proofs.Rule.Unawaited
import ServiceGate.Proofs.Rule.Untested
import ServiceGate.Proofs.Rule.UnusedImports
import ServiceGate.Proofs.Scan.Brackets
import ServiceGate.Proofs.Scan.Restart
import ServiceGate.Proofs.Scan.WellNested
import ServiceGate.Proofs.Spec.Expected
import ServiceGate.Proofs.Spec.Named
import ServiceGate.Proofs.Spec.Uncommented
import ServiceGate.Proofs.Suppression.History
import ServiceGate.Proofs.Suppression.Reach
import ServiceGate.Proofs.Verdict.Exclusions
import ServiceGate.Proofs.Verdict.Modes
import ServiceGate.Proofs.Verdict.SourceOrder
