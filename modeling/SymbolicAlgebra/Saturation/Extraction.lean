import SymbolicAlgebra.Saturation.EGraph

/-!
# Costs and extraction

The cost of a term is the sum of the costs of its nodes. One model counts nodes, the other one
prefers polynomials over other functions and literals over everything else. From a class of an
e-graph the cheapest of its terms is extracted: the costs of the classes are lowered, starting from
the leaves, until none can be lowered any more.
-/

namespace SymbolicAlgebra

/-- A way to count the cost of a term. -/
inductive CostModel where
  /-- The number of nodes. -/
  | termSize
  /-- Weights by the kind of operator. -/
  | weighted
deriving DecidableEq

namespace CostModel

/-- The weight of a node; literals are free. -/
def weight {α : Type} : OpNode α → Nat
  | .num _ => 0
  | .symbol _ => 1
  | .unary .neg _ => 1
  | .unary .abs _ => 3
  | .unary .sqrt _ => 4
  | .unary _ _ => 5
  | .binary .add _ _ | .binary .sub _ _ | .binary .mul _ _ => 2
  | .binary .div _ _ | .binary .pow _ _ => 3

/-- The cost of a node without its operands. -/
def ofNode {α : Type} : CostModel → OpNode α → Nat
  | termSize, _ => 1
  | weighted, n => weight n

/-- The cost of a term. -/
def ofTerm (model : CostModel) : OpTerm → Nat
  | .num n => model.ofNode (.num n : OpNode OpTerm)
  | .symbol s => model.ofNode (.symbol s : OpNode OpTerm)
  | .unary op a => model.ofNode (.unary op a) + model.ofTerm a
  | .binary op a b => model.ofNode (.binary op a b) + model.ofTerm a + model.ofTerm b

end CostModel

/-- The cheapest known node of a class, and the cost of the term below it. -/
structure Choice where
  /-- The cost. -/
  cost : Nat
  /-- The node. -/
  node : ENode

namespace Extraction

/-- The choices for the roots of classes, as far as they are known. -/
abbrev Choices := Array (Option Choice)

/-- The cost of the choice for a class. -/
def costOf? (g : EGraph) (choices : Choices) (i : ClassId) : Option Nat :=
  (choices.getD (g.root i) none).map Choice.cost

/-- The cost of a node, when there are choices for its operands. -/
def nodeCost? (model : CostModel) (g : EGraph) (choices : Choices) (n : ENode) : Option Nat :=
  n.operands.foldl (fun acc? i => do return (← acc?) + (← costOf? g choices i))
    (some (model.ofNode n))

/-- The cheaper one of a choice and a node. -/
def better? (model : CostModel) (g : EGraph) (choices : Choices) (best? : Option Choice)
    (n : ENode) : Option Choice :=
  match nodeCost? model g choices n, best? with
  | some cost, some best => if cost < best.cost then some ⟨cost, n⟩ else some best
  | some cost, none => some ⟨cost, n⟩
  | none, best? => best?

/-- Lowers the cost of one class; the flag tells whether that was possible. -/
def lowerClass (model : CostModel) (g : EGraph) (state : Choices × Bool) (i : ClassId) :
    Choices × Bool :=
  let (choices, changed) := state
  let before := choices.getD i none
  let after := (g.classOf i).nodes.foldl (better? model g choices) before
  match before, after with
  | none, some _ => (choices.setIfInBounds i after, true)
  | some b, some a =>
    if a.cost < b.cost then (choices.setIfInBounds i after, true) else (choices, changed)
  | _, none => (choices, changed)

/-- Lowers the costs of all classes until nothing changes, for a number of rounds. -/
def lowerAll (model : CostModel) (g : EGraph) (places : List ClassId) : Nat → Choices → Choices
  | 0, choices => choices
  | rounds + 1, choices =>
    match places.foldl (lowerClass model g) (choices, false) with
    | (choices, true) => lowerAll model g places rounds choices
    | (choices, false) => choices

/-- The cheapest choice for each class. A term of least cost passes no class twice, so that the
number of classes bounds the number of rounds. -/
def choose (model : CostModel) (g : EGraph) : Choices :=
  let places := (List.range g.links.size).filter fun i => g.links[i]? = some i
  lowerAll model g places (g.links.size + 1) (Array.replicate g.links.size none)

/-- The term that the choices make of a class, down to a number of levels. -/
def term? (g : EGraph) (choices : Choices) : Nat → ClassId → Option OpTerm
  | 0, _ => none
  | levels + 1, i => do
    match (← choices.getD (g.root i) none).node with
    | .num n => return .num n
    | .symbol s => return .symbol s
    | .unary op a => return .unary op (← term? g choices levels a)
    | .binary op a b =>
      return .binary op (← term? g choices levels a) (← term? g choices levels b)

end Extraction

/-- The cheapest term of a class, with its cost. -/
def EGraph.cheapest? (g : EGraph) (model : CostModel) (i : ClassId) : Option (Nat × OpTerm) := do
  let choices := Extraction.choose model g
  let choice ← choices.getD (g.root i) none
  let t ← Extraction.term? g choices (g.links.size + 1) i
  return (choice.cost, t)

end SymbolicAlgebra
