import RobustOpt.Action
import RobustOpt.Affine.Column
import RobustOpt.Affine.Constraint
import RobustOpt.Affine.Expression
import RobustOpt.Affine.Form
import RobustOpt.Binary64
import RobustOpt.Constraint
import RobustOpt.Decimal.Layout
import RobustOpt.Decimal.Rounded
import RobustOpt.Decimal.Shortest
import RobustOpt.Decimal.Vector
import RobustOpt.Display
import RobustOpt.Expression.Bilinear
import RobustOpt.Expression.Mixed
import RobustOpt.Expression.Symbol
import RobustOpt.Expression.Uncertain
import RobustOpt.Fault
import RobustOpt.LinearProgram.Branching
import RobustOpt.LinearProgram.Problem
import RobustOpt.LinearProgram.Simplex
import RobustOpt.LinearProgram.Solver
import RobustOpt.Literal
import RobustOpt.Master
import RobustOpt.Model.Basic
import RobustOpt.Model.Workspace
import RobustOpt.Operand.Arithmetic
import RobustOpt.Operand.Basic
import RobustOpt.Operand.Comparison
import RobustOpt.Operand.Display
import RobustOpt.Operand.Routing
import RobustOpt.Position
import RobustOpt.Preference
import RobustOpt.Proofs.Accounting
import RobustOpt.Proofs.Accumulator
import RobustOpt.Proofs.Accumulator.Calls
import RobustOpt.Proofs.Accumulator.Filling
import RobustOpt.Proofs.Action
import RobustOpt.Proofs.Affine
import RobustOpt.Proofs.Agreement
import RobustOpt.Proofs.Bilinear
import RobustOpt.Proofs.Bilinear.Decomposition
import RobustOpt.Proofs.Bilinear.Placement
import RobustOpt.Proofs.Bilinear.Representation
import RobustOpt.Proofs.Bounds
import RobustOpt.Proofs.Budget
import RobustOpt.Proofs.Budget.Exactness
import RobustOpt.Proofs.Budget.Finiteness
import RobustOpt.Proofs.Budget.Reformulation
import RobustOpt.Proofs.Budget.WorstCase
import RobustOpt.Proofs.Collection
import RobustOpt.Proofs.Collection.Reuse
import RobustOpt.Proofs.Comparison
import RobustOpt.Proofs.Convergence
import RobustOpt.Proofs.Course
import RobustOpt.Proofs.Coverage
import RobustOpt.Proofs.CuttingPlane
import RobustOpt.Proofs.Denotation
import RobustOpt.Proofs.Display
import RobustOpt.Proofs.Display.Constants
import RobustOpt.Proofs.Display.Reading
import RobustOpt.Proofs.Display.Vocabulary
import RobustOpt.Proofs.Duality
import RobustOpt.Proofs.Encoding
import RobustOpt.Proofs.Exact
import RobustOpt.Proofs.Extremes
import RobustOpt.Proofs.Finiteness
import RobustOpt.Proofs.Frame
import RobustOpt.Proofs.Freshness
import RobustOpt.Proofs.FullBudget
import RobustOpt.Proofs.Geometry
import RobustOpt.Proofs.Independence
import RobustOpt.Proofs.Master
import RobustOpt.Proofs.Operators
import RobustOpt.Proofs.Ownership
import RobustOpt.Proofs.Polyhedral
import RobustOpt.Proofs.Polyhedral.Box
import RobustOpt.Proofs.Polyhedral.Declaration
import RobustOpt.Proofs.Polyhedral.Exactness
import RobustOpt.Proofs.Polyhedral.Polyhedron
import RobustOpt.Proofs.Polyhedral.Reformulation
import RobustOpt.Proofs.Polyhedral.WorstCase
import RobustOpt.Proofs.Products
import RobustOpt.Proofs.Protocol
import RobustOpt.Proofs.Registration
import RobustOpt.Proofs.Relocation
import RobustOpt.Proofs.Renaming
import RobustOpt.Proofs.Renewal
import RobustOpt.Proofs.Report
import RobustOpt.Proofs.Reported
import RobustOpt.Proofs.Robust
import RobustOpt.Proofs.Rounds
import RobustOpt.Proofs.Routing
import RobustOpt.Proofs.Runs
import RobustOpt.Proofs.Safety
import RobustOpt.Proofs.Scenarios
import RobustOpt.Proofs.Scenarios.Entries
import RobustOpt.Proofs.Separation
import RobustOpt.Proofs.Session
import RobustOpt.Proofs.Simulation
import RobustOpt.Proofs.Trace
import RobustOpt.Proofs.UncertaintySet
import RobustOpt.Registry
import RobustOpt.Resolution.Protocol
import RobustOpt.Resolution.Report
import RobustOpt.Resolution.Settings
import RobustOpt.Resolution.Solve
import RobustOpt.Scalar.Basic
import RobustOpt.Scalar.Extended
import RobustOpt.Sparse.Accumulator
import RobustOpt.Sparse.Matrix
import RobustOpt.Text.Character
import RobustOpt.Text.Numeral
import RobustOpt.UncertaintySet.Basic
import RobustOpt.UncertaintySet.Budget
import RobustOpt.UncertaintySet.CuttingPlane
import RobustOpt.UncertaintySet.Phase
import RobustOpt.UncertaintySet.Polyhedral
import RobustOpt.UncertaintySet.Scripted
