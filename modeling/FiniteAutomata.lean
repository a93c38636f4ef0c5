import FiniteAutomata.Alphabet
import FiniteAutomata.Description.Basic
import FiniteAutomata.Description.Parser
import FiniteAutomata.Dfa.Basic
import FiniteAutomata.Dfa.Decision
import FiniteAutomata.Dfa.Determinization
import FiniteAutomata.Dfa.Operations
import FiniteAutomata.Directory
import FiniteAutomata.Graph.Components
import FiniteAutomata.Graph.Digraph
import FiniteAutomata.Graph.Search
import FiniteAutomata.Loading
import FiniteAutomata.Main
import FiniteAutomata.Nfa.Basic
import FiniteAutomata.Nfa.Operations
import FiniteAutomata.Numbering
import FiniteAutomata.Proofs.Alphabets
import FiniteAutomata.Proofs.BlankLines
import FiniteAutomata.Proofs.CheckedAccess
import FiniteAutomata.Proofs.CommandLines
import FiniteAutomata.Proofs.Components
import FiniteAutomata.Proofs.Condensation
import FiniteAutomata.Proofs.Conflicts
import FiniteAutomata.Proofs.Constructible
import FiniteAutomata.Proofs.Copies
import FiniteAutomata.Proofs.DanglingEdges
import FiniteAutomata.Proofs.DecisionLaws
import FiniteAutomata.Proofs.Decisions
import FiniteAutomata.Proofs.Descriptions
import FiniteAutomata.Proofs.Determinization
import FiniteAutomata.Proofs.EpsilonClosure
import FiniteAutomata.Proofs.Execution
import FiniteAutomata.Proofs.FinishTimes
import FiniteAutomata.Proofs.FirstFault
import FiniteAutomata.Proofs.Grammar
import FiniteAutomata.Proofs.InPlace
import FiniteAutomata.Proofs.Invocations
import FiniteAutomata.Proofs.LeavingOrder
import FiniteAutomata.Proofs.Ledger
import FiniteAutomata.Proofs.LineEffects
import FiniteAutomata.Proofs.LineEndings
import FiniteAutomata.Proofs.LineOrder
import FiniteAutomata.Proofs.LineReading
import FiniteAutomata.Proofs.LineWords
import FiniteAutomata.Proofs.Modes
import FiniteAutomata.Proofs.Moves
import FiniteAutomata.Proofs.OperandOrder
import FiniteAutomata.Proofs.Parsing
import FiniteAutomata.Proofs.Paths
import FiniteAutomata.Proofs.PowerStates
import FiniteAutomata.Proofs.Queries
import FiniteAutomata.Proofs.Reachability
import FiniteAutomata.Proofs.Registries
import FiniteAutomata.Proofs.RegistryHistory
import FiniteAutomata.Proofs.RegularLaws
import FiniteAutomata.Proofs.RegularOperations
import FiniteAutomata.Proofs.Rendering
import FiniteAutomata.Proofs.Renumbering
import FiniteAutomata.Proofs.Runs
import FiniteAutomata.Proofs.Simulation
import FiniteAutomata.Proofs.StateCounts
import FiniteAutomata.Proofs.StrictTable
import FiniteAutomata.Proofs.TableSizes
import FiniteAutomata.Proofs.Tokens
import FiniteAutomata.Proofs.Transposition
import FiniteAutomata.Proofs.Trimming
import FiniteAutomata.Proofs.TypedLines
import FiniteAutomata.Proofs.WellFormed
import FiniteAutomata.Registry
import FiniteAutomata.Session.Command
import FiniteAutomata.Session.Execution
import FiniteAutomata.Shell.Arguments
import FiniteAutomata.Shell.Input
import FiniteAutomata.Shell.Program
import FiniteAutomata.SortedSet
import FiniteAutomata.Text.Grapheme.Class
import FiniteAutomata.Text.Grapheme.Cluster
import FiniteAutomata.Text.Invisible
import FiniteAutomata.Text.Numeral
import FiniteAutomata.Text.Quoted
import FiniteAutomata.Text.Similarity
import FiniteAutomata.Text.Split
import FiniteAutomata.Text.Terminal
