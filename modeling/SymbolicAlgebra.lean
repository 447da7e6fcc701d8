import SymbolicAlgebra.Expr.Derivative
import SymbolicAlgebra.Expr.Expansion
import SymbolicAlgebra.Proofs.Arithmetic.ExactNumber
import SymbolicAlgebra.Proofs.Expr.Equality
import SymbolicAlgebra.Proofs.Expr.ExactValue
import SymbolicAlgebra.Proofs.Expr.FieldExpression
import SymbolicAlgebra.Proofs.Expr.Expansion
import SymbolicAlgebra.Proofs.Expr.Derivative
import SymbolicAlgebra.Proofs.Expr.Traversal
import SymbolicAlgebra.SetExpr.Algebra
import SymbolicAlgebra.Simplify.Content
import SymbolicAlgebra.Simplify.Simplifier
import SymbolicAlgebra.Solution.Statement
import SymbolicAlgebra.Proofs.Simplify.Term
import SymbolicAlgebra.Proofs.Simplify.Folding
import SymbolicAlgebra.Proofs.Simplify.Normalization
import SymbolicAlgebra.Proofs.Simplify.CommonPowers
import SymbolicAlgebra.Proofs.Simplify.Content
import SymbolicAlgebra.Proofs.Polynomial.Degree
import SymbolicAlgebra.Proofs.Polynomial.Folding
import SymbolicAlgebra.Proofs.Polynomial.NormalForm
import SymbolicAlgebra.Proofs.Polynomial.Coefficients
import SymbolicAlgebra.Proofs.Polynomial.Literals
import SymbolicAlgebra.Proofs.Polynomial.Extraction
import SymbolicAlgebra.Proofs.Polynomial.Roots
import SymbolicAlgebra.Proofs.Expr.Evaluation
import SymbolicAlgebra.Proofs.SetExpr.Listing
import SymbolicAlgebra.Proofs.Simplify.Variables
import SymbolicAlgebra.Proofs.SetExpr.Membership
import SymbolicAlgebra.Proofs.SetExpr.Points
import SymbolicAlgebra.Proofs.SetExpr.Union
import SymbolicAlgebra.Proofs.SetExpr.Intersection
import SymbolicAlgebra.Proofs.Solution.ZeroSet
import SymbolicAlgebra.Proofs.Solution.PositiveSet
import SymbolicAlgebra.Proofs.Solution.Statement
import SymbolicAlgebra.Proofs.Solution.RationalZeros
import SymbolicAlgebra.Proofs.Solution.Levels
import SymbolicAlgebra.Proofs.Solution.Poles
import SymbolicAlgebra.Proofs.Solution.ListedZeros
import SymbolicAlgebra.Proofs.Expr.Variables
import SymbolicAlgebra.Proofs.Arithmetic.Factorization
import SymbolicAlgebra.Proofs.Arithmetic.Divisors
import SymbolicAlgebra.Proofs.Expr.WellFormed
import SymbolicAlgebra.Proofs.Expr.Substitution
import SymbolicAlgebra.Proofs.SetExpr.Stability
import SymbolicAlgebra.Proofs.Simplify.Weight
import SymbolicAlgebra.Proofs.Simplify.TermWeight
import SymbolicAlgebra.Proofs.Simplify.SumWeight
import SymbolicAlgebra.Proofs.Simplify.ProductWeight
import SymbolicAlgebra.Proofs.Simplify.Termination
import SymbolicAlgebra.Proofs.Arithmetic.Accuracy
import SymbolicAlgebra.Proofs.Arithmetic.Decimal
import SymbolicAlgebra.Proofs.Arithmetic.SquareRoot
import SymbolicAlgebra.Proofs.Arithmetic.Order
import SymbolicAlgebra.Proofs.Arithmetic.Tower
import SymbolicAlgebra.Proofs.Expr.Specialization
import SymbolicAlgebra.Proofs.Simplify.RootForm
import SymbolicAlgebra.Proofs.Simplify.Radical
import SymbolicAlgebra.Proofs.Polynomial.SymbolicRoots
import SymbolicAlgebra.Proofs.Arithmetic.Numeral
import SymbolicAlgebra.Proofs.Saturation.Encoding
import SymbolicAlgebra.Proofs.Saturation.Rule
import SymbolicAlgebra.Proofs.Saturation.EGraph
import SymbolicAlgebra.Proofs.Expr.Reading
import SymbolicAlgebra.Proofs.Expr.Children
import SymbolicAlgebra.Proofs.Expr.ExpandedForm
import SymbolicAlgebra.Proofs.Expr.FreeVariables
import SymbolicAlgebra.Proofs.Simplify.PrimitivePart
import SymbolicAlgebra.Proofs.Simplify.Faults
import SymbolicAlgebra.Proofs.Saturation.Capture
import SymbolicAlgebra.Proofs.Expr.Differentiability
import SymbolicAlgebra.Proofs.SetExpr.CommonPoints
import SymbolicAlgebra.Proofs.Simplify.NumericPower
import SymbolicAlgebra.Proofs.Simplify.Totient
import SymbolicAlgebra.Proofs.Expr.Commutation
import SymbolicAlgebra.Proofs.SetExpr.Construction
import SymbolicAlgebra.Proofs.Simplify.SquareFactors
import SymbolicAlgebra.Proofs.Arithmetic.Digits
import SymbolicAlgebra.Proofs.Arithmetic.Precision
import SymbolicAlgebra.Proofs.Expr.Rebuilding
import SymbolicAlgebra.Proofs.Simplify.TermForm
import SymbolicAlgebra.Proofs.Simplify.LikeTerms
