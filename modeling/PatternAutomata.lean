import PatternAutomata.CharClass
import PatternAutomata.Checked.Basic
import PatternAutomata.Checked.Calls
import PatternAutomata.Checked.Choices
import PatternAutomata.Checked.CodePoints
import PatternAutomata.Checked.Compilation
import PatternAutomata.Checked.Composition
import PatternAutomata.Checked.Descent
import PatternAutomata.Checked.Draft
import PatternAutomata.Checked.Elementary
import PatternAutomata.Checked.InPlace
import PatternAutomata.Checked.Intervals
import PatternAutomata.Checked.Marking
import PatternAutomata.Checked.Minimization
import PatternAutomata.Checked.Tables
import PatternAutomata.Decimal
import PatternAutomata.Dfa.Basic
import PatternAutomata.Dfa.Complement
import PatternAutomata.Dfa.Composition
import PatternAutomata.Dfa.Machine
import PatternAutomata.Dfa.Minimization
import PatternAutomata.Dfa.Numerals
import PatternAutomata.Dfa.Product
import PatternAutomata.Exploration
import PatternAutomata.Generator.Basic
import PatternAutomata.Generator.Walk
import PatternAutomata.Interval.Basic
import PatternAutomata.Interval.Display
import PatternAutomata.Interval.Edits
import PatternAutomata.Interval.Lists
import PatternAutomata.Nfa.Determinization
import PatternAutomata.Pattern.Basic
import PatternAutomata.Pattern.Compilation
import PatternAutomata.Pattern.Cursor
import PatternAutomata.Pattern.Grammar
import PatternAutomata.Pattern.Language
import PatternAutomata.Pattern.Parser
import PatternAutomata.Pattern.Shape
import PatternAutomata.Proofs.AlphabetSets
import PatternAutomata.Proofs.BreadthFirst
import PatternAutomata.Proofs.Canonicity
import PatternAutomata.Proofs.CheckedCompilation
import PatternAutomata.Proofs.CheckedComposition
import PatternAutomata.Proofs.CheckedElementary
import PatternAutomata.Proofs.CheckedIntervals
import PatternAutomata.Proofs.CheckedMinimization
import PatternAutomata.Proofs.CheckedNumerals
import PatternAutomata.Proofs.Choices
import PatternAutomata.Proofs.Classes
import PatternAutomata.Proofs.CodePoints
import PatternAutomata.Proofs.Commutation
import PatternAutomata.Proofs.Compilation
import PatternAutomata.Proofs.Complement
import PatternAutomata.Proofs.Composition
import PatternAutomata.Proofs.Consumption
import PatternAutomata.Proofs.Cursors
import PatternAutomata.Proofs.Decimals
import PatternAutomata.Proofs.Descent
import PatternAutomata.Proofs.Determinization
import PatternAutomata.Proofs.Drafts
import PatternAutomata.Proofs.Draws
import PatternAutomata.Proofs.Edits
import PatternAutomata.Proofs.Elementary
import PatternAutomata.Proofs.Embedding
import PatternAutomata.Proofs.Escapes
import PatternAutomata.Proofs.Explorations
import PatternAutomata.Proofs.FaultPositions
import PatternAutomata.Proofs.Folding
import PatternAutomata.Proofs.Forms
import PatternAutomata.Proofs.Gluing
import PatternAutomata.Proofs.InPlace
import PatternAutomata.Proofs.Inclusion
import PatternAutomata.Proofs.Insertion
import PatternAutomata.Proofs.IntervalMaps
import PatternAutomata.Proofs.IntervalOrder
import PatternAutomata.Proofs.IntervalSets
import PatternAutomata.Proofs.LeastWords
import PatternAutomata.Proofs.Lockstep
import PatternAutomata.Proofs.Marking
import PatternAutomata.Proofs.Minimization
import PatternAutomata.Proofs.Numbering
import PatternAutomata.Proofs.Numerals
import PatternAutomata.Proofs.Operations
import PatternAutomata.Proofs.Parsing
import PatternAutomata.Proofs.Paths
import PatternAutomata.Proofs.PatternGenerators
import PatternAutomata.Proofs.PrintableAlphabet
import PatternAutomata.Proofs.Printing
import PatternAutomata.Proofs.Product
import PatternAutomata.Proofs.Progress
import PatternAutomata.Proofs.References
import PatternAutomata.Proofs.Refinement
import PatternAutomata.Proofs.Representation
import PatternAutomata.Proofs.Rereading
import PatternAutomata.Proofs.Resolution
import PatternAutomata.Proofs.Rounds
import PatternAutomata.Proofs.Rows
import PatternAutomata.Proofs.Runs
import PatternAutomata.Proofs.Searches
import PatternAutomata.Proofs.SetAlgebra
import PatternAutomata.Proofs.SubsetConstruction
import PatternAutomata.Proofs.Substitution
import PatternAutomata.Proofs.Succession
import PatternAutomata.Proofs.Tabulation
import PatternAutomata.Proofs.Trees
import PatternAutomata.Proofs.Unambiguity
import PatternAutomata.Proofs.Unification
import PatternAutomata.Proofs.Usage
import PatternAutomata.Proofs.Usefulness
import PatternAutomata.Proofs.Walks
import PatternAutomata.Proofs.Weights
import PatternAutomata.Random.Source
import PatternAutomata.Regex
import PatternAutomata.Scalar
