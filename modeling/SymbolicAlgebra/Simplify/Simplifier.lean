import SymbolicAlgebra.Saturation.Extraction
import SymbolicAlgebra.Saturation.Saturate
import SymbolicAlgebra.Saturation.Encoding
import SymbolicAlgebra.Simplify.Pattern

/-!
# The simplifier

Simplification has three phases. Patterns are applied until nothing changes. Every outermost part
that the language of operator terms covers is saturated with rules and replaced by its
cheapest form, if that is smaller. Where this changed something, the patterns are applied once more.
-/

namespace SymbolicAlgebra

/-- How to simplify. -/
structure Simplifier where
  /-- The largest number of pattern passes, and of iterations of a saturation. -/
  iterations : Nat := 30
  /-- The number of nodes beyond which a saturation stops. -/
  nodes : Nat := 10000
  /-- Whether to saturate at all. -/
  saturates : Bool := true
  /-- How the cheapest form is chosen. -/
  cost : CostModel := .termSize
  /-- The patterns. -/
  patterns : List Pattern := Pattern.library
  /-- The rules of saturation. -/
  rules : List Rule := Rule.library

/-- A simplified expression, and what was done for it. -/
structure Simplified where
  /-- The expression. -/
  expr : Expr
  /-- The number of pattern passes. -/
  passes : Nat
  /-- The number of parts that were saturated. -/
  saturations : Nat

namespace Simplifier

/-- Patterns alone. -/
def patternsOnly : Simplifier := { saturates := false }

/-- Applies the patterns until nothing changes. -/
def normalize (s : Simplifier) (e : Expr) : Pattern.Normalized :=
  Pattern.normalize s.patterns s.iterations e

/-- The cheapest form of an expression that the language covers, if it is smaller. -/
def saturated (s : Simplifier) (e : Expr) : Expr :=
  let (term, kept) := (Encoding.toTerm e).run []
  let (g, i) := EGraph.ofTerm term
  let g := g.saturate s.rules ⟨s.iterations, s.nodes⟩
  match g.cheapest? s.cost i with
  | some (_, best) =>
    let candidate := Encoding.ofTerm kept best
    if candidate.size < e.size then candidate else e
  | none => e

/-- Whether an expression is saturated as a whole: the language covers it, and it is no atom. -/
def isSaturable (e : Expr) : Bool := !e.isAtom && Encoding.covers e

/-- Saturates the outermost parts that the language covers. -/
def saturateParts (s : Simplifier) (e : Expr) : Expr :=
  e.replaceOutermost fun node => if isSaturable node then some (s.saturated node) else none

/-- The number of outermost parts that the language covers. -/
def countParts (e : Expr) : Nat :=
  e.fold fun node counts => if isSaturable node then 1 else counts.foldl (· + ·) 0

/-- Simplifies an expression, and tells what was done. -/
def run (s : Simplifier) (e : Expr) : Simplified :=
  let first := s.normalize e
  if s.saturates && !s.rules.isEmpty then
    let saturated := s.saturateParts first.expr
    let count := countParts first.expr
    if saturated == first.expr then ⟨first.expr, first.passes, count⟩
    else
      let second := s.normalize saturated
      ⟨second.expr, first.passes + second.passes, count⟩
  else ⟨first.expr, first.passes, 0⟩

end Simplifier

namespace Expr

/-- Simplifies with all patterns and all rules. -/
def simplify (e : Expr) : Expr := (Simplifier.run {} e).expr

/-- Simplifies with all patterns. -/
def normalForm (e : Expr) : Expr := (Simplifier.patternsOnly.run e).expr

end Expr

end SymbolicAlgebra
