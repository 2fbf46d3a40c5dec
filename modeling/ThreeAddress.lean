import ThreeAddress.Main
import ThreeAddress.Token.Cursor
import ThreeAddress.Proofs.Run
import ThreeAddress.Proofs.Tree
import ThreeAddress.Proofs.Emission
import ThreeAddress.Proofs.Levels
import ThreeAddress.Proofs.JumpBookkeeping
import ThreeAddress.Proofs.Grammar
import ThreeAddress.Proofs.Steps
import ThreeAddress.Proofs.PlainTranslation
import ThreeAddress.Proofs.Recognition
import ThreeAddress.Proofs.Semantics
import ThreeAddress.Proofs.Machine
import ThreeAddress.Proofs.Preservation
import ThreeAddress.Proofs.Diagnosis
import ThreeAddress.Proofs.StaticChecks
import ThreeAddress.Proofs.NestingLimit
import ThreeAddress.Proofs.Lifetimes
import ThreeAddress.Proofs.ControlFlow
import ThreeAddress.Proofs.Lockstep
import ThreeAddress.Proofs.Relocation
import ThreeAddress.Proofs.Effects
import ThreeAddress.Proofs.Pruning
import ThreeAddress.Proofs.Slips
import ThreeAddress.Proofs.Recovery
import ThreeAddress.Proofs.Resemblance
import ThreeAddress.Proofs.Layout
import ThreeAddress.Proofs.NameBinding
import ThreeAddress.Proofs.StoreHistory
import ThreeAddress.Proofs.Listing
import ThreeAddress.Proofs.StatementEntry
import ThreeAddress.Proofs.DigitLimit
import ThreeAddress.Proofs.UnreachedLimit
import ThreeAddress.Proofs.Printing
import ThreeAddress.Proofs.Backpatching
import ThreeAddress.Proofs.MaximalMunch
import ThreeAddress.Proofs.SaturatedLiterals
import ThreeAddress.Proofs.Arguments
import ThreeAddress.Proofs.Skipping
import ThreeAddress.Proofs.Compositional
import ThreeAddress.Proofs.DiagnosticOrder
import ThreeAddress.Proofs.Procedures
import ThreeAddress.Proofs.Activations
import ThreeAddress.Proofs.Termination
import ThreeAddress.Proofs.DepthBalance
