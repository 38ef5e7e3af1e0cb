import StackMachine.Code.Assembly
import StackMachine.Code.Instruction
import StackMachine.Code.Module
import StackMachine.Code.Opcode
import StackMachine.Command
import StackMachine.Data.Datum
import StackMachine.Data.Dict
import StackMachine.Data.Scalar
import StackMachine.Data.Tag
import StackMachine.Image.Bytes
import StackMachine.Image.Decode
import StackMachine.Image.Digest
import StackMachine.Image.Encode
import StackMachine.Machine.Failure
import StackMachine.Machine.Frame
import StackMachine.Machine.Native
import StackMachine.Machine.Program
import StackMachine.Machine.Run
import StackMachine.Machine.Step
import StackMachine.Machine.Switch
import StackMachine.Machine.Thread
import StackMachine.Main
import StackMachine.Native.Core
import StackMachine.Native.Host
import StackMachine.Number.Double
import StackMachine.Number.Shortest
import StackMachine.Operator.Arithmetic
import StackMachine.Operator.Basic
import StackMachine.Operator.Comparison
import StackMachine.Operator.Container
import StackMachine.Proofs.Acceptance
import StackMachine.Proofs.AccessPaths
import StackMachine.Proofs.Aliasing
import StackMachine.Proofs.ArgumentBinding
import StackMachine.Proofs.Bisimilarity
import StackMachine.Proofs.BranchInversion
import StackMachine.Proofs.CallReturns
import StackMachine.Proofs.CallStack
import StackMachine.Proofs.CodePointers
import StackMachine.Proofs.Codec
import StackMachine.Proofs.Comparison
import StackMachine.Proofs.ComparisonLaws
import StackMachine.Proofs.ConfinedRuns
import StackMachine.Proofs.Confinement
import StackMachine.Proofs.Copying
import StackMachine.Proofs.CrashTraces
import StackMachine.Proofs.DeadCode
import StackMachine.Proofs.Definedness
import StackMachine.Proofs.Depths
import StackMachine.Proofs.Destinations
import StackMachine.Proofs.Dictionary
import StackMachine.Proofs.Duplication
import StackMachine.Proofs.Effects
import StackMachine.Proofs.FlowSearch
import StackMachine.Proofs.Halting
import StackMachine.Proofs.InPlaceSorting
import StackMachine.Proofs.InstructionStreams
import StackMachine.Proofs.Instructions
import StackMachine.Proofs.IntegerArithmetic
import StackMachine.Proofs.KeyComparability
import StackMachine.Proofs.LateBinding
import StackMachine.Proofs.Literals
import StackMachine.Proofs.Lockstep
import StackMachine.Proofs.MapKeys
import StackMachine.Proofs.MapUnion
import StackMachine.Proofs.Mutation
import StackMachine.Proofs.NameResolution
import StackMachine.Proofs.Nesting
import StackMachine.Proofs.Occupancy
import StackMachine.Proofs.Outcomes
import StackMachine.Proofs.Poisoning
import StackMachine.Proofs.PrefixFreedom
import StackMachine.Proofs.Reachability
import StackMachine.Proofs.Regions
import StackMachine.Proofs.Relaying
import StackMachine.Proofs.Rendering
import StackMachine.Proofs.Replication
import StackMachine.Proofs.Reuse
import StackMachine.Proofs.RoundTrip
import StackMachine.Proofs.Soundness
import StackMachine.Proofs.Spelling
import StackMachine.Proofs.StackEffects
import StackMachine.Proofs.StackPaths
import StackMachine.Proofs.Surfacing
import StackMachine.Proofs.SwitchLookup
import StackMachine.Proofs.Switching
import StackMachine.Proofs.TableSorting
import StackMachine.Proofs.Territory
import StackMachine.Proofs.Transcript
import StackMachine.Store.Basic
import StackMachine.Store.Copy
import StackMachine.Store.Equality
import StackMachine.Store.Load
import StackMachine.Store.Unfold
import StackMachine.Text.Decimal
import StackMachine.Text.Quoted
import StackMachine.Text.Spelled
import StackMachine.Verify
import StackMachine.Verify.Error
import StackMachine.Verify.Flow
import StackMachine.Verify.Limits
import StackMachine.Verify.Stack
import StackMachine.Verify.Structure
