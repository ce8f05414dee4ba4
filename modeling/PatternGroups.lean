import PatternGroups.Ascending
import PatternGroups.Automaton
import PatternGroups.Automaton.Graph
import PatternGroups.Automaton.Merge
import PatternGroups.Automaton.Renumber
import PatternGroups.Automaton.Split
import PatternGroups.Automaton.Stages
import PatternGroups.Automaton.Trim
import PatternGroups.BitSet
import PatternGroups.BitSet.Registers
import PatternGroups.BitSet.Storage
import PatternGroups.BitTables
import PatternGroups.BitTables.SubsetCount
import PatternGroups.Bounds
import PatternGroups.Decimal.Shortest
import PatternGroups.Edges
import PatternGroups.EpsilonAutomaton
import PatternGroups.EpsilonAutomaton.Construction
import PatternGroups.EpsilonAutomaton.Elimination
import PatternGroups.IndexedTable
import PatternGroups.Numbering
import PatternGroups.OrderedMap
import PatternGroups.Plan
import PatternGroups.Plan.Event
import PatternGroups.Plan.Settings
import PatternGroups.PrefixParts
import PatternGroups.Proofs.Accessibility
import PatternGroups.Proofs.Ancestry
import PatternGroups.Proofs.Arrivals
import PatternGroups.Proofs.Braces
import PatternGroups.Proofs.BreadthFirst
import PatternGroups.Proofs.ByteOrder
import PatternGroups.Proofs.Capacities
import PatternGroups.Proofs.Cells
import PatternGroups.Proofs.Classes
import PatternGroups.Proofs.Closures
import PatternGroups.Proofs.Coactivity
import PatternGroups.Proofs.Connectors
import PatternGroups.Proofs.Construction
import PatternGroups.Proofs.Counting
import PatternGroups.Proofs.Cutting
import PatternGroups.Proofs.Dependence
import PatternGroups.Proofs.Elimination
import PatternGroups.Proofs.EpsilonRuns
import PatternGroups.Proofs.Faults
import PatternGroups.Proofs.Formation
import PatternGroups.Proofs.Futures
import PatternGroups.Proofs.Grammar
import PatternGroups.Proofs.Homogeneity
import PatternGroups.Proofs.Homogenization
import PatternGroups.Proofs.Indexing
import PatternGroups.Proofs.Items
import PatternGroups.Proofs.Labels
import PatternGroups.Proofs.Languages
import PatternGroups.Proofs.Leftovers
import PatternGroups.Proofs.Legibility
import PatternGroups.Proofs.Lexing
import PatternGroups.Proofs.Matching
import PatternGroups.Proofs.Members
import PatternGroups.Proofs.Merging
import PatternGroups.Proofs.Moves
import PatternGroups.Proofs.NormalForms
import PatternGroups.Proofs.Numerals
import PatternGroups.Proofs.Order
import PatternGroups.Proofs.OrderedMaps
import PatternGroups.Proofs.PartSizes
import PatternGroups.Proofs.Partitioning
import PatternGroups.Proofs.Pipeline
import PatternGroups.Proofs.Plans
import PatternGroups.Proofs.Positions
import PatternGroups.Proofs.Progress
import PatternGroups.Proofs.Reachability
import PatternGroups.Proofs.Reading
import PatternGroups.Proofs.Rejections
import PatternGroups.Proofs.Renumbering
import PatternGroups.Proofs.Repetitions
import PatternGroups.Proofs.Requests
import PatternGroups.Proofs.Respelling
import PatternGroups.Proofs.Rows
import PatternGroups.Proofs.Rules
import PatternGroups.Proofs.Runs
import PatternGroups.Proofs.Settling
import PatternGroups.Proofs.Simplification
import PatternGroups.Proofs.Sizes
import PatternGroups.Proofs.Spelling
import PatternGroups.Proofs.Splitting
import PatternGroups.Proofs.Stages
import PatternGroups.Proofs.StartLoop
import PatternGroups.Proofs.StoredSets
import PatternGroups.Proofs.Survivors
import PatternGroups.Proofs.Tables
import PatternGroups.Proofs.TopUps
import PatternGroups.Proofs.Trees
import PatternGroups.Proofs.Trials
import PatternGroups.Proofs.Trimming
import PatternGroups.Proofs.Upkeep
import PatternGroups.Proofs.Walks
import PatternGroups.Proofs.WeakestCuts
import PatternGroups.Proofs.Words
import PatternGroups.Proofs.Worklist
import PatternGroups.Refusal
import PatternGroups.Regex.Counted
import PatternGroups.Regex.Expr
import PatternGroups.Regex.Item
import PatternGroups.Regex.Spelling
import PatternGroups.Regex.SyntaxError
import PatternGroups.Regex.Token
import PatternGroups.Regex.Tree
import PatternGroups.Regex.Tree.Outline
import PatternGroups.Search
import PatternGroups.Sorting
import PatternGroups.SparseTable
import PatternGroups.SymbolSet
import PatternGroups.SymbolSet.Construction
import PatternGroups.SymbolSet.Label
import PatternGroups.SymbolSet.Words
import PatternGroups.Text.Blank
import PatternGroups.Text.Braced
import PatternGroups.Text.Numeral
