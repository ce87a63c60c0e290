import ModelFinder.Error
import ModelFinder.Text.Unseen
import ModelFinder.Text.Quoted
import ModelFinder.Data.Ascending
import ModelFinder.Data.SortedTable
import ModelFinder.Data.Table
import ModelFinder.Data.Capacity
import ModelFinder.Data.Universe
import ModelFinder.Data.TupleSet
import ModelFinder.Data.Bounds
import ModelFinder.Data.Instance
import ModelFinder.Data.Containment
import ModelFinder.Logic.Leaf
import ModelFinder.Logic.Expr
import ModelFinder.Logic.Formula
import ModelFinder.Logic.Text
import ModelFinder.Logic.Semantics
import ModelFinder.Circuit.Basic
import ModelFinder.Circuit.Matrix
import ModelFinder.Circuit.Relational
import ModelFinder.Circuit.Valuation
import ModelFinder.Circuit.Wires
import ModelFinder.Circuit.Operation
import ModelFinder.Cnf.Basic
import ModelFinder.Cnf.Encoder
import ModelFinder.Encoding.Numbering
import ModelFinder.Encoding.Leaves
import ModelFinder.Encoding.Grounding
import ModelFinder.Encoding.Log
import ModelFinder.Encoding.Basic
import ModelFinder.Encoding.Evaluate
import ModelFinder.Sat.Backend
import ModelFinder.Sat.Propagator
import ModelFinder.Sat.Learning
import ModelFinder.Sat.Lexicographic
import ModelFinder.Sat.Store
import ModelFinder.Sat.Weights
import ModelFinder.Sat.Budget
import ModelFinder.Sat.Cost
import ModelFinder.Sat.Faithful
import ModelFinder.Search.Ledger
import ModelFinder.Search.Session
import ModelFinder.Search.Minimize
import ModelFinder.Search.Lifters
import ModelFinder.Finder.Options
import ModelFinder.Finder.Solution
import ModelFinder.Finder.Solve
import ModelFinder.Finder.Enumeration
import ModelFinder.Finder.Check
import ModelFinder.Finder.Minimal
import ModelFinder.Proofs.Circuit.Ensures
import ModelFinder.Proofs.Data.RowMajor
import ModelFinder.Proofs.Circuit.Gates
import ModelFinder.Proofs.Circuit.Matrix
import ModelFinder.Proofs.Circuit.Relational
import ModelFinder.Proofs.Circuit.Multiplicity
import ModelFinder.Proofs.Circuit.Closure
import ModelFinder.Proofs.Data.Built
import ModelFinder.Proofs.Data.Bounds
import ModelFinder.Proofs.Encoding.Numbering
import ModelFinder.Proofs.Encoding.Leaves
import ModelFinder.Proofs.Encoding.Expressions
import ModelFinder.Proofs.Encoding.Quantifiers
import ModelFinder.Proofs.Encoding.Formulas
import ModelFinder.Proofs.Cnf.Clauses
import ModelFinder.Proofs.Cnf.Traversal
import ModelFinder.Proofs.Cnf.Encoder
import ModelFinder.Proofs.Data.Instances
import ModelFinder.Proofs.Encoding.Worlds
import ModelFinder.Proofs.Encoding.Exact
import ModelFinder.Proofs.Sat.Refinement
import ModelFinder.Proofs.Sat.Faults
import ModelFinder.Proofs.Sat.Store
import ModelFinder.Proofs.Sat.Exhaustive
import ModelFinder.Proofs.Encoding.Meaning
import ModelFinder.Proofs.Search.Session
import ModelFinder.Proofs.Search.Minimize
import ModelFinder.Proofs.Finder.Models
import ModelFinder.Proofs.Finder.Solve
import ModelFinder.Proofs.Search.Ledger
import ModelFinder.Proofs.Search.Lifters
import ModelFinder.Proofs.Finder.Pursuit
import ModelFinder.Proofs.Finder.Enumeration
import ModelFinder.Proofs.Encoding.Dependence
import ModelFinder.Proofs.Finder.Residue
import ModelFinder.Proofs.Finder.Exhaustion
import ModelFinder.Proofs.Finder.Stages
import ModelFinder.Proofs.Finder.Folded
import ModelFinder.Proofs.Finder.Assumptions
import ModelFinder.Proofs.Finder.Tracking
import ModelFinder.Proofs.Finder.Lifters
import ModelFinder.Proofs.Finder.Lift
import ModelFinder.Proofs.Finder.Lifted
import ModelFinder.Proofs.Search.Upkeep
import ModelFinder.Proofs.Search.Refusals
import ModelFinder.Proofs.Finder.Loading
import ModelFinder.Proofs.Encoding.Logged
import ModelFinder.Proofs.Finder.Refutations
import ModelFinder.Proofs.Circuit.Progress
import ModelFinder.Proofs.Encoding.Progress
import ModelFinder.Proofs.Search.Frame
import ModelFinder.Proofs.Finder.Protocol
import ModelFinder.Proofs.Encoding.Flaws
import ModelFinder.Proofs.Circuit.Constants
import ModelFinder.Proofs.Encoding.Constants
import ModelFinder.Proofs.Encoding.Resolution
import ModelFinder.Proofs.Finder.Evaluation
import ModelFinder.Proofs.Sat.Weights
import ModelFinder.Proofs.Sat.Budget
import ModelFinder.Proofs.Sat.Cost
import ModelFinder.Proofs.Finder.Cheapest
import ModelFinder.Proofs.Circuit.Wires
import ModelFinder.Proofs.Circuit.Operations
import ModelFinder.Proofs.Cnf.Requests
import ModelFinder.Proofs.Cnf.Emission
import ModelFinder.Proofs.Circuit.Algebra
import ModelFinder.Proofs.Search.Descent
import ModelFinder.Proofs.Circuit.Fixpoint
import ModelFinder.Proofs.Encoding.Bijection
import ModelFinder.Proofs.Encoding.Isomorphism
import ModelFinder.Proofs.Encoding.Readback
import ModelFinder.Proofs.Logic.Splitting
import ModelFinder.Proofs.Encoding.Records
import ModelFinder.Proofs.Sat.Optimum
import ModelFinder.Proofs.Data.Tuples
import ModelFinder.Proofs.Data.TupleSets
import ModelFinder.Proofs.Data.Bindings
import ModelFinder.Proofs.Encoding.Dimensions
import ModelFinder.Proofs.Circuit.Sharing
import ModelFinder.Proofs.Circuit.Sharing
