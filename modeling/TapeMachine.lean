import TapeMachine.Folder
import TapeMachine.Machine.Back
import TapeMachine.Main
import TapeMachine.Proofs.Alike
import TapeMachine.Proofs.TimeTravel
import TapeMachine.Proofs.Undo
import TapeMachine.Tape.Binary
import TapeMachine.Tape.Equality
import TapeMachine.Tape.Layer
import TapeMachine.Proofs.Retreat
import TapeMachine.Proofs.Analysis
import TapeMachine.Proofs.MachineInvariant
import TapeMachine.Proofs.TapeIdentity
import TapeMachine.Proofs.InPlace
import TapeMachine.Proofs.Layers
import TapeMachine.Proofs.LockStep
import TapeMachine.Proofs.Replay
import TapeMachine.Proofs.Reset
import TapeMachine.Proofs.BundleDocument
import TapeMachine.Proofs.Atomic
import TapeMachine.Proofs.InfiniteTape
import TapeMachine.Proofs.AnyLayer
import TapeMachine.Proofs.VisitedRange
import TapeMachine.Proofs.TapeEquality
import TapeMachine.Proofs.TapeGrammar
import TapeMachine.Proofs.TapeLanguage
import TapeMachine.Proofs.Maps
import TapeMachine.Proofs.CompetingRows
import TapeMachine.Proofs.Findings
import TapeMachine.Proofs.ReadBack
import TapeMachine.Proofs.ReversibleMoves
import TapeMachine.Proofs.ReadIndex
import TapeMachine.Proofs.BinaryDigits
import TapeMachine.Proofs.Verdicts
import TapeMachine.Proofs.StepBack
import TapeMachine.Proofs.StoredForm
