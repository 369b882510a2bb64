import TermMachine.Census
import TermMachine.CommandLine
import TermMachine.Main
import TermMachine.Proofs.Computation
import TermMachine.Proofs.Composition
import TermMachine.Proofs.Fuel
import TermMachine.Proofs.Nodes
import TermMachine.Proofs.Rollback
import TermMachine.Proofs.Closed
import TermMachine.Proofs.Invariant
import TermMachine.Proofs.Descent
import TermMachine.Proofs.Reading
import TermMachine.Proofs.Termination
import TermMachine.Proofs.Grammar
import TermMachine.Proofs.LongestMatch
import TermMachine.Proofs.Lexing
import TermMachine.Proofs.Printing
import TermMachine.Proofs.PrintedLiterals
import TermMachine.Proofs.RoundTrip
import TermMachine.Proofs.Ordering
import TermMachine.Proofs.Settling
import TermMachine.Proofs.PrintedValues
import TermMachine.Proofs.NodeShape
import TermMachine.Proofs.Parts
import TermMachine.Proofs.Recognition
import TermMachine.Proofs.Discipline
import TermMachine.Proofs.Upkeep
import TermMachine.Proofs.WellShaped
import TermMachine.Proofs.FlatTerms
import TermMachine.Proofs.GuardedTypes
import TermMachine.Proofs.SequenceRuns
import TermMachine.Proofs.StoreTyping
import TermMachine.Proofs.StepLimit
import TermMachine.Proofs.CutOff
import TermMachine.Proofs.StepBudget
import TermMachine.Proofs.RunPaths
import TermMachine.Proofs.FullyEvaluated
import TermMachine.Proofs.Stateless
import TermMachine.Proofs.EvaluationOrder
import TermMachine.Proofs.StoreLaws
import TermMachine.Proofs.Scoping
import TermMachine.Proofs.StuckSteps
import TermMachine.Proofs.Signals
import TermMachine.Proofs.AtomicRuns
import TermMachine.Proofs.ForwardOnly
import TermMachine.Proofs.NoNesting
import TermMachine.Proofs.LocalComposition
import TermMachine.Proofs.StallDetection
import TermMachine.Proofs.SortedCollections
import TermMachine.Proofs.PartInvariants
import TermMachine.Proofs.OrderlyCollections
import TermMachine.Proofs.SetMembers
import TermMachine.Proofs.OrderedArguments
import TermMachine.Proofs.Variables
import TermMachine.Proofs.FixedParameters
import TermMachine.Proofs.ViablePrefixes
import TermMachine.Proofs.RecordedErrors
import TermMachine.Proofs.FirstOffence
import TermMachine.Proofs.ParseReports
import TermMachine.Proofs.Splicing
import TermMachine.Proofs.LiteralsReadBack
import TermMachine.Proofs.Subtyping
import TermMachine.Proofs.FiniteMaps
import TermMachine.Proofs.Rebuilding
import TermMachine.Proofs.ExactIntegers
import TermMachine.Proofs.SearchedElements
import TermMachine.Proofs.TokenRanges
import TermMachine.Proofs.FairChoices
import TermMachine.Proofs.TermOrder
