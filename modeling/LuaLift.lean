import LuaLift.Dump.Outline
import LuaLift.Main
import LuaLift.Sample.Workload
import LuaLift.Text.Template
import LuaLift.Proofs.Growth
import LuaLift.Proofs.Meaning
import LuaLift.Proofs.Ladder
import LuaLift.Proofs.Conditions
import LuaLift.Proofs.Expression
import LuaLift.Proofs.Spelling
import LuaLift.Proofs.Lexing
import LuaLift.Proofs.Reading
import LuaLift.Proofs.Evaluation
import LuaLift.Proofs.Grouping
import LuaLift.Proofs.Assembling
import LuaLift.Proofs.Decoding
import LuaLift.Proofs.Locality
import LuaLift.Proofs.Accepting
import LuaLift.Proofs.Bytewise
import LuaLift.Proofs.NameSearch
import LuaLift.Proofs.Descriptions
import LuaLift.Proofs.Listings
import LuaLift.Proofs.Sharing
import LuaLift.Proofs.Parts
import LuaLift.Proofs.Branching
import LuaLift.Proofs.Tiling
import LuaLift.Proofs.Lifting
import LuaLift.Proofs.Ways
import LuaLift.Proofs.BlockExits
import LuaLift.Proofs.FlowGraph
import LuaLift.Proofs.Functions
import LuaLift.Proofs.Checking
import LuaLift.Proofs.LoopTests
import LuaLift.Proofs.Sequencing
import LuaLift.Proofs.LocalNames
import LuaLift.Proofs.EarlySteps
import LuaLift.Proofs.RecordSequences
import LuaLift.Proofs.RecordTrees
import LuaLift.Proofs.ByteOrders
import LuaLift.Proofs.Paths
import LuaLift.Proofs.Conversions
import LuaLift.Proofs.FolderRuns
import LuaLift.Proofs.Nesting
import LuaLift.Proofs.Writable
import LuaLift.Proofs.WritingValid
import LuaLift.Proofs.Tidying
import LuaLift.Proofs.Filling
import LuaLift.Proofs.TidyingValid
import LuaLift.Proofs.ShortCircuit
import LuaLift.Proofs.JoinedOperands
import LuaLift.Proofs.OperandEnds
import LuaLift.Proofs.ConditionRecovery
import LuaLift.Proofs.BranchPrograms
import LuaLift.Proofs.BranchRegions
import LuaLift.Proofs.BranchConditions
import LuaLift.Proofs.BranchTrees
import LuaLift.Proofs.BranchRecovery
import LuaLift.Proofs.StatementLists
import LuaLift.Proofs.ElseChains
import LuaLift.Proofs.ChainJoining
import LuaLift.Proofs.BranchRuns
import LuaLift.Proofs.Arithmetic
import LuaLift.Proofs.AssignedValues
import LuaLift.Proofs.ConstructorEntries
import LuaLift.Proofs.ConstructorFolding
import LuaLift.Proofs.StorageNames
import LuaLift.Proofs.DebugSections
import LuaLift.Proofs.Spending
import LuaLift.Proofs.Literals
import LuaLift.Proofs.SlotRows
import LuaLift.Proofs.Numerals
import LuaLift.Proofs.ComparedVariables
import LuaLift.Proofs.Inversion
