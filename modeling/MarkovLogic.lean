import MarkovLogic.Clique
import MarkovLogic.Clique.Key
import MarkovLogic.Clique.Register
import MarkovLogic.CommandLine
import MarkovLogic.CommandLine.Arguments
import MarkovLogic.CommandLine.Disk
import MarkovLogic.CommandLine.Help
import MarkovLogic.Computed
import MarkovLogic.Config
import MarkovLogic.Config.File
import MarkovLogic.Decimal.Layout
import MarkovLogic.Decimal.Reading
import MarkovLogic.Decimal.Rounding
import MarkovLogic.Decimal.Scaled
import MarkovLogic.Decimal.Shortest
import MarkovLogic.Document
import MarkovLogic.Document.Json
import MarkovLogic.Document.Toml
import MarkovLogic.Document.Toml.Value
import MarkovLogic.Domain
import MarkovLogic.Error
import MarkovLogic.Evidence
import MarkovLogic.Formula
import MarkovLogic.Formula.Printer
import MarkovLogic.Formula.Reader
import MarkovLogic.Formula.Similarity
import MarkovLogic.Grounding.Harvest
import MarkovLogic.Grounding.Rounds
import MarkovLogic.Grounding.Template
import MarkovLogic.Herbrand.Base
import MarkovLogic.Herbrand.Block
import MarkovLogic.Inference
import MarkovLogic.KnowledgeBase
import MarkovLogic.Linear.Program
import MarkovLogic.Linear.Simplex
import MarkovLogic.Linear.SparseRow
import MarkovLogic.Linear.Tableau
import MarkovLogic.LocalSearch
import MarkovLogic.Main
import MarkovLogic.MapState
import MarkovLogic.Model
import MarkovLogic.Network
import MarkovLogic.Network.State
import MarkovLogic.Odometer
import MarkovLogic.Problem
import MarkovLogic.Proofs.Clique.Accumulation
import MarkovLogic.Proofs.Clique.Coalescing
import MarkovLogic.Proofs.Clique.Literals
import MarkovLogic.Proofs.Clique.Register
import MarkovLogic.Proofs.Clique.Signs
import MarkovLogic.Proofs.Clique.Theory
import MarkovLogic.Proofs.Computed
import MarkovLogic.Proofs.Computed.Comparison
import MarkovLogic.Proofs.Declarations
import MarkovLogic.Proofs.Evidence.Counters
import MarkovLogic.Proofs.Evidence.Faithful
import MarkovLogic.Proofs.Evidence.Filing
import MarkovLogic.Proofs.ExactField
import MarkovLogic.Proofs.Extended
import MarkovLogic.Proofs.Floating
import MarkovLogic.Proofs.Formula.Grammar
import MarkovLogic.Proofs.Formula.Renaming
import MarkovLogic.Proofs.Formula.Similarity
import MarkovLogic.Proofs.Grounding.Closure
import MarkovLogic.Proofs.Grounding.Correspondence
import MarkovLogic.Proofs.Grounding.Entries
import MarkovLogic.Proofs.Grounding.Hardness
import MarkovLogic.Proofs.Grounding.Instances
import MarkovLogic.Proofs.Grounding.Interest
import MarkovLogic.Proofs.Grounding.Meaning
import MarkovLogic.Proofs.Grounding.NormalForm
import MarkovLogic.Proofs.Grounding.Preparation
import MarkovLogic.Proofs.Grounding.Probes
import MarkovLogic.Proofs.Grounding.Pruning
import MarkovLogic.Proofs.Grounding.Reference
import MarkovLogic.Proofs.Grounding.Rewriting
import MarkovLogic.Proofs.Grounding.Slots
import MarkovLogic.Proofs.Grounding.WellFormed
import MarkovLogic.Proofs.Herbrand.Codec
import MarkovLogic.Proofs.Herbrand.Layout
import MarkovLogic.Proofs.Herbrand.Limit
import MarkovLogic.Proofs.Herbrand.Numbering
import MarkovLogic.Proofs.Herbrand.Overflow
import MarkovLogic.Proofs.Herbrand.Rank
import MarkovLogic.Proofs.Herbrand.Words
import MarkovLogic.Proofs.Inference.Answers
import MarkovLogic.Proofs.Linear.Canonical
import MarkovLogic.Proofs.Linear.Course
import MarkovLogic.Proofs.Linear.Dense
import MarkovLogic.Proofs.Linear.Outcome
import MarkovLogic.Proofs.Linear.Phases
import MarkovLogic.Proofs.Linear.Placement
import MarkovLogic.Proofs.Linear.Pricing
import MarkovLogic.Proofs.Linear.Reading
import MarkovLogic.Proofs.Linear.Solutions
import MarkovLogic.Proofs.Linear.Sparse
import MarkovLogic.Proofs.Linear.Start
import MarkovLogic.Proofs.Linear.Steps
import MarkovLogic.Proofs.LocalSearch.Best
import MarkovLogic.Proofs.LocalSearch.Budget
import MarkovLogic.Proofs.LocalSearch.Fixed
import MarkovLogic.Proofs.LocalSearch.Safety
import MarkovLogic.Proofs.LocalSearch.Walk
import MarkovLogic.Proofs.Model
import MarkovLogic.Proofs.Network.Adjacency
import MarkovLogic.Proofs.Network.Assembly
import MarkovLogic.Proofs.Network.Bookkeeping
import MarkovLogic.Proofs.Network.Checked
import MarkovLogic.Proofs.Network.Costs
import MarkovLogic.Proofs.Network.Counts
import MarkovLogic.Proofs.Network.Domination
import MarkovLogic.Proofs.Network.Landscape
import MarkovLogic.Proofs.Network.Lexicographic
import MarkovLogic.Proofs.Network.Potentials
import MarkovLogic.Proofs.Network.Restriction
import MarkovLogic.Proofs.Network.Violations
import MarkovLogic.Proofs.Odometer
import MarkovLogic.Proofs.Odometer.Runs
import MarkovLogic.Proofs.Relaxation.Certificate
import MarkovLogic.Proofs.Relaxation.Completion
import MarkovLogic.Proofs.Relaxation.Decided
import MarkovLogic.Proofs.Relaxation.Descent
import MarkovLogic.Proofs.Relaxation.Encoding
import MarkovLogic.Proofs.Relaxation.Margin
import MarkovLogic.Proofs.Relaxation.Table
import MarkovLogic.Proofs.Text.Cutting
import MarkovLogic.Proofs.Traverse
import MarkovLogic.Random
import MarkovLogic.Random.ChaCha
import MarkovLogic.Relaxation
import MarkovLogic.Relaxation.Rounding
import MarkovLogic.Report
import MarkovLogic.Scalar
import MarkovLogic.Text.Blank
import MarkovLogic.Text.Hidden
import MarkovLogic.Text.Lowercase
import MarkovLogic.Text.Quoted
