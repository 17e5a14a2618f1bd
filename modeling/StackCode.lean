import StackCode.Main
import StackCode.Proofs.Nesting
import StackCode.Proofs.Rewriting
import StackCode.Proofs.ScopeTree
import StackCode.Proofs.Placement
import StackCode.Proofs.Misplaced
import StackCode.Proofs.Lowering
import StackCode.Proofs.Compile
import StackCode.Proofs.Lookup
import StackCode.Proofs.Ensures
import StackCode.Proofs.Running
import StackCode.Proofs.Calls
import StackCode.Proofs.Soundness
import StackCode.Proofs.CompiledRuns
import StackCode.Proofs.Simulation
import StackCode.Proofs.RewrittenRuns
import StackCode.Proofs.FoldRuns
import StackCode.Proofs.PeepholeRuns
import StackCode.Proofs.Heights
import StackCode.Proofs.CheckedHeights
import StackCode.Proofs.HeightRuns
import StackCode.Proofs.CodeMeaning
import StackCode.Proofs.Evaluator
import StackCode.Proofs.Visible
import StackCode.Proofs.Worlds
import StackCode.Proofs.Correspondence
import StackCode.Proofs.LoweredRuns
import StackCode.Proofs.UnitMeaning
import StackCode.Proofs.Generation
import StackCode.Proofs.Translation
import StackCode.Proofs.GeneratedHeights
import StackCode.Proofs.GeneratedCode
import StackCode.Proofs.Tokens
import StackCode.Proofs.CrossReferences
import StackCode.Proofs.TempScopes
import StackCode.Proofs.TempDeclarations
import StackCode.Proofs.StatementMeaning
import StackCode.Proofs.UnitStates
import StackCode.Proofs.RegionRuns
import StackCode.Proofs.UnitCalls
import StackCode.Proofs.InstructionRuns
import StackCode.Proofs.TranslatedRuns
import StackCode.Proofs.UnitRuns
import StackCode.Proofs.Congruence
import StackCode.Proofs.Guards
import StackCode.Proofs.Isolation
import StackCode.Proofs.StepLimit
import StackCode.Proofs.WireRoundTrip
import StackCode.Proofs.MirroredChains
import StackCode.Proofs.SharedSlots
import StackCode.Proofs.StableBindings
import StackCode.Proofs.EnvironmentAccess
import StackCode.Proofs.BlockCuts
import StackCode.Proofs.BuiltTrees
import StackCode.Proofs.RewrittenHeights
import StackCode.Proofs.NormalForms
import StackCode.Proofs.Merging
import StackCode.Proofs.Grammar
import StackCode.Proofs.ReadForms
import StackCode.Proofs.ScanRoundTrip
import StackCode.Proofs.ScopeAccess
import StackCode.Proofs.TokenPlaces
import StackCode.Proofs.StringLiterals
import StackCode.Proofs.IntegerOperators
import StackCode.Proofs.Backtraces
import StackCode.Proofs.CallBases
import StackCode.Proofs.OperandCounts
import StackCode.Proofs.Interning
