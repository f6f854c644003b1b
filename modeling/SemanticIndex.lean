import SemanticIndex.Decimal.Binary64
import SemanticIndex.Decimal.Shortest
import SemanticIndex.Evaluation.Context
import SemanticIndex.Evaluation.Evaluate
import SemanticIndex.Evaluation.Operators
import SemanticIndex.Gather
import SemanticIndex.Index.Basic
import SemanticIndex.Index.Copy
import SemanticIndex.Index.Cursor
import SemanticIndex.Index.DocBlock
import SemanticIndex.Index.Fragment
import SemanticIndex.Index.Listing
import SemanticIndex.Index.Lookup
import SemanticIndex.Index.NameTable
import SemanticIndex.Index.Node
import SemanticIndex.Index.Options
import SemanticIndex.Index.Outline
import SemanticIndex.Index.Resolution
import SemanticIndex.Index.Update
import SemanticIndex.Proofs.Access.Contributing
import SemanticIndex.Proofs.Access.Direct
import SemanticIndex.Proofs.Access.Faultless
import SemanticIndex.Proofs.Access.Indexing
import SemanticIndex.Proofs.Access.Operations
import SemanticIndex.Proofs.Access.Pragmas
import SemanticIndex.Proofs.Adding
import SemanticIndex.Proofs.Agreement
import SemanticIndex.Proofs.Anchoring
import SemanticIndex.Proofs.Annotating
import SemanticIndex.Proofs.Arriving
import SemanticIndex.Proofs.Bindings
import SemanticIndex.Proofs.Bookkeeping
import SemanticIndex.Proofs.Bracketing
import SemanticIndex.Proofs.CommentBlocks
import SemanticIndex.Proofs.Commuting
import SemanticIndex.Proofs.Contents
import SemanticIndex.Proofs.Copying
import SemanticIndex.Proofs.Counterparts
import SemanticIndex.Proofs.Declarations
import SemanticIndex.Proofs.Depth
import SemanticIndex.Proofs.Documentation
import SemanticIndex.Proofs.Emission
import SemanticIndex.Proofs.Entities
import SemanticIndex.Proofs.Evaluator
import SemanticIndex.Proofs.Expanding
import SemanticIndex.Proofs.Fidelity
import SemanticIndex.Proofs.Fields
import SemanticIndex.Proofs.Forest.Address
import SemanticIndex.Proofs.Forest.Change
import SemanticIndex.Proofs.Forest.Layout
import SemanticIndex.Proofs.Forest.Walk
import SemanticIndex.Proofs.Grouping
import SemanticIndex.Proofs.History
import SemanticIndex.Proofs.Integers
import SemanticIndex.Proofs.Isolation
import SemanticIndex.Proofs.Laying
import SemanticIndex.Proofs.Ledger
import SemanticIndex.Proofs.LocalNames
import SemanticIndex.Proofs.Locating
import SemanticIndex.Proofs.Lookup
import SemanticIndex.Proofs.Macros
import SemanticIndex.Proofs.Maps
import SemanticIndex.Proofs.Meaning
import SemanticIndex.Proofs.Naming
import SemanticIndex.Proofs.Nesting
import SemanticIndex.Proofs.Normalization
import SemanticIndex.Proofs.Occurrences
import SemanticIndex.Proofs.Outlines
import SemanticIndex.Proofs.PathOrder
import SemanticIndex.Proofs.Paths
import SemanticIndex.Proofs.Places
import SemanticIndex.Proofs.Pruning
import SemanticIndex.Proofs.Reaching
import SemanticIndex.Proofs.Readding
import SemanticIndex.Proofs.Reading
import SemanticIndex.Proofs.Reevaluation
import SemanticIndex.Proofs.Regions
import SemanticIndex.Proofs.Reindexing
import SemanticIndex.Proofs.Relabeling
import SemanticIndex.Proofs.Resolving
import SemanticIndex.Proofs.RoundTrip
import SemanticIndex.Proofs.Runs
import SemanticIndex.Proofs.Scanning
import SemanticIndex.Proofs.Searching
import SemanticIndex.Proofs.Shape
import SemanticIndex.Proofs.Sites
import SemanticIndex.Proofs.Substitution
import SemanticIndex.Proofs.Summaries
import SemanticIndex.Proofs.Ties
import SemanticIndex.Proofs.Unfolding
import SemanticIndex.Proofs.Variables
import SemanticIndex.Proofs.Withdrawing
import SemanticIndex.Scan.Discover
import SemanticIndex.Scan.Host
import SemanticIndex.Scan.Options
import SemanticIndex.Scan.Report
import SemanticIndex.Sorting
import SemanticIndex.Source.Definition
import SemanticIndex.Source.Document
import SemanticIndex.Source.Mention
import SemanticIndex.Source.Name
import SemanticIndex.Source.Operator
import SemanticIndex.Source.Path
import SemanticIndex.Source.Position
import SemanticIndex.Source.Value
import SemanticIndex.Text.Blank
import SemanticIndex.Text.CodeRange
import SemanticIndex.Text.GraphemeExtend
import SemanticIndex.Text.Printable
import SemanticIndex.Text.Quoted
import SemanticIndex.Text.Split
