import Saddle.Access
import Saddle.CommandLine.Options
import Saddle.CommandLine.Run
import Saddle.Decimal.Digits
import Saddle.Decimal.Double
import Saddle.Decimal.Integer
import Saddle.Decimal.Real
import Saddle.Decimal.Shortest
import Saddle.Elimination.Adjacency
import Saddle.Elimination.ApproximateMinimumDegree
import Saddle.Elimination.Choice
import Saddle.Elimination.DegreeBuckets
import Saddle.Elimination.Density
import Saddle.Elimination.MinimumDegree
import Saddle.Elimination.Order
import Saddle.Elimination.Pattern
import Saddle.Elimination.QuotientGraph.Basic
import Saddle.Elimination.QuotientGraph.Eliminate
import Saddle.Factor.Numeric
import Saddle.Factor.Solve
import Saddle.Factor.Symbolic
import Saddle.Json.Number
import Saddle.Json.Skip
import Saddle.Json.Token
import Saddle.Kkt.Assembly
import Saddle.Kkt.PerConstraint
import Saddle.Kkt.Update
import Saddle.Main
import Saddle.Market.Error
import Saddle.Market.Reader
import Saddle.Proofs.Access
import Saddle.Scalar
import Saddle.Settings.Basic
import Saddle.Settings.Json
import Saddle.Settings.Report
import Saddle.Solver.Basic
import Saddle.Solver.Demo
import Saddle.Solver.Report
import Saddle.Solver.Update
import Saddle.Sparse.Check
import Saddle.Sparse.Layout
import Saddle.Sparse.Matrix
import Saddle.Sparse.Permute
import Saddle.Sparse.Product
import Saddle.Sparse.Triplets
import Saddle.Text.Blank
import Saddle.Text.Lines
import Saddle.Text.Printable
import Saddle.Text.Quoted
import Saddle.Proofs.Sparse.Columns
import Saddle.Proofs.Factor.Tree
import Saddle.Proofs.Factor.Gather
import Saddle.Proofs.Factor.Elimination
import Saddle.Proofs.Factor.Kernel
import Saddle.Proofs.Exact
import Saddle.Proofs.Sparse.Dense
import Saddle.Proofs.Sparse.DenseCopy
import Saddle.Proofs.Factor.Reconstruct
import Saddle.Proofs.Sparse.Cells
import Saddle.Proofs.Sparse.Permute
import Saddle.Proofs.Sparse.Scatter
import Saddle.Proofs.Elimination.Order
import Saddle.Proofs.Kkt.Assembly
import Saddle.Proofs.Factor.QuasiDefinite
import Saddle.Proofs.Kkt.Dense
import Saddle.Proofs.Kkt.QuasiDefinite
import Saddle.Proofs.Solver.Setup
import Saddle.Proofs.Solver.Convex
import Saddle.Proofs.Kkt.Update
import Saddle.Proofs.Factor.Solve
import Saddle.Proofs.Solver.Solve
import Saddle.Proofs.Solver.Update
import Saddle.Proofs.Solver.Session
import Saddle.Proofs.Solver.Answer
import Saddle.Proofs.Bounds
import Saddle.Proofs.Sparse.Checks
import Saddle.Proofs.Kkt.Layout
import Saddle.Proofs.Elimination.DegreeBuckets
import Saddle.Proofs.Elimination.Pattern
import Saddle.Proofs.Elimination.Graph
import Saddle.Proofs.Elimination.Adjacency
import Saddle.Proofs.Elimination.MinimumDegree
import Saddle.Proofs.Elimination.Choice
import Saddle.Proofs.Kkt.Bounds
import Saddle.Proofs.Solver.Bounds
import Saddle.Proofs.Inertia
import Saddle.Proofs.Factor.Inertia
import Saddle.Proofs.Factor.Fill
import Saddle.Proofs.Kkt.Inertia
import Saddle.Proofs.Solver.Verdict
import Saddle.Proofs.InPlace
import Saddle.Proofs.Kkt.Write
import Saddle.Proofs.Kkt.Commute
import Saddle.Proofs.Solver.Atomic
import Saddle.Proofs.Text.Words
import Saddle.Proofs.Decimal.Integer
import Saddle.Proofs.Market.Format
import Saddle.Proofs.Market.Reader
import Saddle.Proofs.Factor.Minors
import Saddle.Proofs.Factor.Refactor
import Saddle.Proofs.Factor.Trace
import Saddle.Proofs.Factor.Room
import Saddle.Proofs.Sparse.Relabel
import Saddle.Proofs.Kkt.Maps
import Saddle.Proofs.Elimination.DenseLast
import Saddle.Proofs.Elimination.EliminationGraph
import Saddle.Proofs.Elimination.Storage
import Saddle.Proofs.Factor.Relabel
import Saddle.Proofs.Elimination.FillPath
import Saddle.Proofs.Elimination.FillCount
import Saddle.Proofs.Elimination.Forest
import Saddle.Proofs.Elimination.TieBreaking
import Saddle.Proofs.Sparse.Pushes
import Saddle.Proofs.Text.Lines
import Saddle.Proofs.Market.RoundTrip
import Saddle.Proofs.Sparse.Composition
import Saddle.Proofs.Sparse.Product
import Saddle.Proofs.Solver.Trial
import Saddle.Proofs.Market.FirstOffence
import Saddle.Proofs.Factor.Discovery
import Saddle.Proofs.Elimination.BucketHistory
import Saddle.Proofs.Kkt.Diagonal
