import StackMachine.Files.Directory
import StackMachine.Main
import StackMachine.Proofs.Activations
import StackMachine.Proofs.Addresses
import StackMachine.Proofs.Execution
import StackMachine.Proofs.WordEvaluation
import StackMachine.Proofs.Templates
import StackMachine.Proofs.CallSites
import StackMachine.Proofs.Agreement
import StackMachine.Proofs.Decoding
import StackMachine.Proofs.Listings
import StackMachine.Proofs.GuardedMemory
import StackMachine.Proofs.PlacementRuns
import StackMachine.Proofs.Installation
import StackMachine.Proofs.Settling
import StackMachine.Proofs.InstalledEntries
import StackMachine.Proofs.Repetition
import StackMachine.Proofs.CodeSize
import StackMachine.Proofs.WellFormed
import StackMachine.Proofs.SpaceAccounting
import StackMachine.Proofs.Acceptance
import StackMachine.Proofs.Sweeps
import StackMachine.Proofs.LiveCalls
import StackMachine.Proofs.Refusals
import StackMachine.Proofs.Fixnums
import StackMachine.Proofs.BodyLines
import StackMachine.Proofs.ProgramFiles
import StackMachine.Proofs.InterpreterRuns
import StackMachine.Proofs.Traversal
import StackMachine.Proofs.Overflows
import StackMachine.Proofs.CallLimits
import StackMachine.Proofs.NestedCalls
import StackMachine.Proofs.Tilings
import StackMachine.Proofs.CompileOrder
import StackMachine.Proofs.EncodingParts
import StackMachine.Proofs.GeneratedCode
import StackMachine.Proofs.SpaceUsed
import StackMachine.Proofs.LineLayout
import StackMachine.Proofs.Numerals
import StackMachine.Proofs.FileText
import StackMachine.Proofs.Reassembly
import StackMachine.Proofs.FixnumArithmetic
import StackMachine.Proofs.Literals
import StackMachine.Proofs.KnownForms
import StackMachine.Proofs.CompilerMoments
import StackMachine.Proofs.Nesting
