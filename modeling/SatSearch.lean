import SatSearch.Assignment
import SatSearch.Evaluation
import SatSearch.ExactlyOne
import SatSearch.Main
import SatSearch.Proofs.Solver
import SatSearch.Proofs.Course
import SatSearch.Proofs.Requests
import SatSearch.Proofs.Bounds
import SatSearch.Proofs.GreatestModel
import SatSearch.Proofs.Likeness
import SatSearch.Proofs.Lockstep
import SatSearch.Proofs.Assumptions
import SatSearch.Proofs.Cancellation
import SatSearch.Proofs.Equisatisfiability
import SatSearch.Proofs.Idempotence
import SatSearch.Proofs.UnitPropagation
import SatSearch.Proofs.Transcript
import SatSearch.Proofs.Traversal
import SatSearch.Proofs.Tractability
import SatSearch.Proofs.Statistics
import SatSearch.Proofs.Renaming
import SatSearch.Proofs.Correspondence
import SatSearch.Proofs.Equivariance
import SatSearch.Proofs.Pieces
import SatSearch.Proofs.Formula
import SatSearch.Proofs.Grammar
import SatSearch.Proofs.CommandLine
import SatSearch.Proofs.ExactlyOne
import SatSearch.Proofs.ExactlyOnePropagation
import SatSearch.Proofs.IndexHistory
import SatSearch.Proofs.Workers
import SatSearch.Proofs.Defects
import SatSearch.Proofs.FixedPoint
import SatSearch.Proofs.FormulaHistory
import SatSearch.Proofs.ModelLine
import SatSearch.Proofs.Completions
