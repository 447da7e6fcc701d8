import Std.Data.HashMap
import SymbolicAlgebra.Saturation.OpTerm

/-!
# E-graphs

An e-graph holds many terms at once, sorted into classes of terms that are known to be equal. The
nodes of a class have classes as operands again. Merging two classes may make two nodes the same,
and then their classes have to be merged as well; this is put off until `EGraph.rebuild`.

A class also remembers the integer that it is known to be equal to. Such a class contains the
literal and drops its nodes with operands, since nothing is cheaper or more definite than the
literal. The index of the e-graph still tells the class of a dropped node.
-/

namespace SymbolicAlgebra

/-- The name of a class; merged classes have several names, one of which is the root. -/
abbrev ClassId := Nat

/-- A node of an e-graph. -/
abbrev ENode := OpNode ClassId

/-- A class of equal terms. -/
structure EClass where
  /-- The nodes of the class. -/
  nodes : Array ENode
  /-- The nodes that have the class as an operand, each with its own class. -/
  users : Array (ENode × ClassId)
  /-- The integer that the class is known to be equal to. -/
  value? : Option Int
deriving Inhabited

/-- Terms sorted into classes. -/
structure EGraph where
  /-- For each class name another name of the same class, which is the name itself for a root. -/
  links : Array ClassId
  /-- The class for each root. -/
  classes : Array EClass
  /-- The class for each node that has been met; entries with names that are no roots may stay. -/
  index : Std.HashMap ENode ClassId
  /-- Nodes with an operand that has been merged since the last rebuilding. -/
  pending : Array (ENode × ClassId)
  /-- Nodes with an operand that has got a known value since the last rebuilding. -/
  stale : Array (ENode × ClassId)

namespace EGraph

/-- The e-graph without terms. -/
def empty : EGraph := ⟨#[], #[], ∅, #[], #[]⟩

instance : Inhabited EGraph := ⟨empty⟩

/-- Follows links for a number of steps. -/
def rootWithin (links : Array ClassId) : Nat → ClassId → ClassId
  | 0, i => i
  | steps + 1, i =>
    match links[i]? with
    | some j => if j = i then i else rootWithin links steps j
    | none => i

/-- The root of a class. -/
def root (g : EGraph) (i : ClassId) : ClassId := rootWithin g.links g.links.size i

/-- The class with a name. -/
def classOf (g : EGraph) (i : ClassId) : EClass := g.classes.getD (g.root i) default

/-- The integer that a class is known to be equal to. -/
def value? (g : EGraph) (i : ClassId) : Option Int := (g.classOf i).value?

/-- The node with roots as operands. -/
def canonical (g : EGraph) (n : ENode) : ENode := n.map g.root

/-- The number of nodes in the index. -/
def indexSize (g : EGraph) : Nat := g.index.size

/-- The class that a node is in, if it has been met. -/
def lookup? (g : EGraph) (n : ENode) : Option ClassId :=
  (g.index[g.canonical n]?).map g.root

/-- The integer that a node is equal to, by the known values of its operands. -/
def nodeValue? (g : EGraph) (n : ENode) : Option Int := n.fold? g.value?

/-- Enters a node into the users of its operands. -/
def addUser (g : EGraph) (n : ENode) (i : ClassId) : EGraph :=
  n.operands.foldl
    (fun g a => { g with
      classes := g.classes.modify (g.root a) fun c => { c with users := c.users.push (n, i) } })
    g

/-- A new class for a node whose operands are roots. -/
def newClass (g : EGraph) (n : ENode) : EGraph × ClassId :=
  let i := g.links.size
  let value := g.nodeValue? n
  let g := g.addUser n i
  ({ g with
      links := g.links.push i
      classes := g.classes.push ⟨#[n], #[], value⟩
      pending := g.pending.push (n, i)
      index := g.index.insert n i }, i)

/-- The class of a node, a new one if the node has not been met. Nothing is merged. -/
def enter (g : EGraph) (n : ENode) : EGraph × ClassId :=
  match g.lookup? n with
  | some i => (g, i)
  | none => g.newClass (g.canonical n)

/-- Makes one class of two, under the root with more users. -/
def link (g : EGraph) (a b : ClassId) : EGraph × Bool :=
  let a := g.root a
  let b := g.root b
  if a = b then (g, false)
  else
    let (kept, dropped) :=
      if (g.classOf a).users.size < (g.classOf b).users.size then (b, a) else (a, b)
    let gone := g.classOf dropped
    let stay := g.classOf kept
    let stale := match stay.value?, gone.value? with
      | none, some _ => g.stale ++ stay.users
      | some _, none => g.stale ++ gone.users
      | _, _ => g.stale
    let merged : EClass :=
      ⟨stay.nodes ++ gone.nodes, stay.users ++ gone.users, stay.value?.or gone.value?⟩
    ({ g with
        links := g.links.setIfInBounds dropped kept
        classes := (g.classes.setIfInBounds dropped default).setIfInBounds kept merged
        pending := g.pending ++ gone.users
        stale := stale }, true)

/-- Gives a class with a known value the literal, and drops its nodes with operands. -/
def settle (g : EGraph) (i : ClassId) : EGraph :=
  match g.value? i with
  | none => g
  | some n =>
    let (g, literal) := g.enter (.num n)
    let g := (g.link i literal).1
    { g with classes := g.classes.modify (g.root i) fun c =>
        { c with nodes := c.nodes.filter OpNode.isLeaf } }

/-- The class of a node, a new one if the node has not been met. -/
def add (g : EGraph) (n : ENode) : EGraph × ClassId :=
  match g.lookup? n with
  | some i => (g, i)
  | none =>
    let (g, i) := g.newClass (g.canonical n)
    (g.settle i, i)

/-- Merges two classes; the flag tells whether they were different. -/
def merge (g : EGraph) (a b : ClassId) : EGraph × Bool :=
  match g.link a b with
  | (g, true) => (g.settle a, true)
  | (g, false) => (g, false)

/-- The class of a term. -/
def addTerm (g : EGraph) : OpTerm → EGraph × ClassId
  | .num n => g.add (.num n)
  | .symbol s => g.add (.symbol s)
  | .unary op a =>
    let (g, i) := g.addTerm a
    g.add (.unary op i)
  | .binary op a b =>
    let (g, i) := g.addTerm a
    let (g, j) := g.addTerm b
    g.add (.binary op i j)

/-! ## Rebuilding -/

/-- Enters a node again under the roots of its operands, and merges what became the same. -/
def restoreNode (g : EGraph) (n : ENode) (i : ClassId) : EGraph :=
  let n := g.canonical n
  let met := g.index[n]?
  let g := { g with index := g.index.insert n i }
  match met with
  | some j => (g.merge j i).1
  | none => g

/-- Computes the value of a node again, and passes on what is new. -/
def restoreValue (g : EGraph) (n : ENode) (i : ClassId) : EGraph :=
  match g.value? i, g.nodeValue? n with
  | none, some v =>
    let i := g.root i
    let users := (g.classOf i).users
    let g := { g with
      classes := g.classes.modify i fun c => { c with value? := some v }
      stale := g.stale ++ users }
    g.settle i
  | _, _ => g

/-- Works through what is pending and stale, for a number of steps. -/
def restore : Nat → EGraph → EGraph
  | 0, g => g
  | steps + 1, g =>
    match g.pending.back? with
    | some (n, i) => restore steps (restoreNode { g with pending := g.pending.pop } n i)
    | none =>
      match g.stale.back? with
      | some (n, i) => restore steps (restoreValue { g with stale := g.stale.pop } n i)
      | none => g

/-- The nodes under the roots of their operands, each once and in ascending order. -/
def tidy (g : EGraph) (c : EClass) : EClass :=
  let nodes := c.nodes.toList.map g.canonical
  { c with nodes := (nodes.mergeSort fun a b => a.order b != .gt).eraseReps.toArray }

/-- A bound for the steps of a rebuilding. What is in line grows by the users of one class when two
classes are merged or a value becomes known, and there are no more such events than a small multiple
of the number of classes. -/
def restoreSteps (g : EGraph) : Nat :=
  let users := g.classes.foldl (fun n c => n + c.users.size) 0
  g.pending.size + g.stale.size + 8 * (g.links.size + 1) * (users + 1)

/-- Merges the classes of nodes that became the same, and passes on known values. -/
def rebuild (g : EGraph) : EGraph :=
  let g := restore g.restoreSteps g
  { g with classes := g.classes.map g.tidy }

end EGraph

end SymbolicAlgebra
