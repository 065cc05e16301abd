import TermIndex.Error
import TermIndex.Settings.Reader
import TermIndex.Index
import TermIndex.Forest
import TermIndex.Encoding.Encoder
import TermIndex.Pattern.Flatten
import TermIndex.Pattern.Reader
import TermIndex.Pattern.Printer
import TermIndex.Surface.Parser
import TermIndex.Surface.Lexer
import TermIndex.Surface.Names
import TermIndex.Term.Printer
import TermIndex.Term.Contract
import TermIndex.Text.Quoted
import TermIndex.Text.Alphabetic
import TermIndex.Text.Numeric
import TermIndex.Text.Blank
import TermIndex.Text.Extender
import TermIndex.Text.Unprintable
import TermIndex.Proofs.Complete
import TermIndex.Proofs.Shape
import TermIndex.Proofs.Entries
import TermIndex.Proofs.Branches
import TermIndex.Proofs.Insertion
import TermIndex.Proofs.FiniteMap
import TermIndex.Proofs.Canonical
import TermIndex.Proofs.Flattening
import TermIndex.Proofs.Runs
import TermIndex.Proofs.Positions
import TermIndex.Proofs.Skipping
import TermIndex.Proofs.Matching
import TermIndex.Proofs.Searching
import TermIndex.Proofs.Hits
import TermIndex.Proofs.Nodes
import TermIndex.Proofs.Bindings
import TermIndex.Proofs.Fits
import TermIndex.Proofs.Filling
import TermIndex.Proofs.Reading
import TermIndex.Proofs.StarFree
import TermIndex.Proofs.Unification
import TermIndex.Proofs.Lookups
import TermIndex.Proofs.Encodings
import TermIndex.Proofs.Covering
import TermIndex.Proofs.Alignment
import TermIndex.Proofs.SelfRetrieval
import TermIndex.Proofs.Retrieval
import TermIndex.Proofs.Specificity
import TermIndex.Proofs.Visiting
import TermIndex.Proofs.Ranking
import TermIndex.Proofs.Ranks
import TermIndex.Proofs.Relabelling
import TermIndex.Proofs.RoundTrip
import TermIndex.Proofs.Variants
import TermIndex.Proofs.Contractions
import TermIndex.Proofs.EtaAlternates
import TermIndex.Proofs.Redexes
import TermIndex.Proofs.BoundVariables
import TermIndex.Proofs.NormalForms
import TermIndex.Proofs.Rewriting
import TermIndex.Proofs.BareEncoding
import TermIndex.Proofs.MappedSearch
import TermIndex.Proofs.MappedValues
import TermIndex.Proofs.VariableNumbers
import TermIndex.Proofs.Readers
import TermIndex.Proofs.Scanning
import TermIndex.Proofs.Spelling
import TermIndex.Proofs.Phrases
import TermIndex.Proofs.Grammar
import TermIndex.Proofs.Scopes
import TermIndex.Proofs.PhraseReading
import TermIndex.Proofs.PrintedTerms
import TermIndex.Proofs.Outcomes
import TermIndex.Proofs.Productions
import TermIndex.Proofs.Parses
import TermIndex.Proofs.ReadTerms
import TermIndex.Proofs.Numbering
import TermIndex.Proofs.SearchOrder
import TermIndex.Proofs.Discovery
import TermIndex.Proofs.Renaming
import TermIndex.Proofs.Loosening
import TermIndex.Proofs.KeyTrees
import TermIndex.Proofs.Checking
import TermIndex.Proofs.Validation
import TermIndex.Proofs.Idempotence
import TermIndex.Proofs.ClosedEncodings
import TermIndex.Proofs.Shifting
import TermIndex.Proofs.EtaExpansions
import TermIndex.Proofs.Pointwise
import TermIndex.Proofs.Hygiene
import TermIndex.Proofs.Termination
import TermIndex.Proofs.ClosedTerms
import TermIndex.Proofs.InstanceBinders
import TermIndex.Proofs.Numerals
import TermIndex.Proofs.PlainTraversal
import TermIndex.Proofs.Reached
import TermIndex.Proofs.SkippedSubtrees
import TermIndex.Proofs.WordReduction
import TermIndex.Proofs.WordContraction
import TermIndex.Proofs.CountedRuns
import TermIndex.Words.Arithmetic
import TermIndex.Words.Counts
import TermIndex.Words.Loose
import TermIndex.Words.Whnf
