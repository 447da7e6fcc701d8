import SymbolicAlgebra.Saturation.Rule

/-!
# Equality saturation

An iteration finds the matches of all rules in the current e-graph, applies them in the order of the
rules and rebuilds the e-graph. The iterations end when one changes nothing, when their number is
used up, or when the e-graph has more nodes than allowed.

A rule with too many matches at once is not applied but banned for some iterations; each further
time it is allowed twice as many matches and banned for twice as long. While rules are banned an
iteration without a change does not end the run, but shortens the bans.
-/

namespace SymbolicAlgebra

/-- Where a saturation stops. -/
structure SaturationLimits where
  /-- The largest number of iterations. -/
  iterations : Nat
  /-- The number of nodes beyond which no further rule is applied. -/
  nodes : Nat

namespace Saturation

/-- A place where a rule applies. -/
structure Match where
  /-- The class that a term of the left side was found in. -/
  place : ClassId
  /-- The classes in the holes. -/
  bindings : Bindings

/-- How often a rule has been banned, and the iteration from which it may be applied again. -/
structure Ban where
  /-- The number of bans so far. -/
  count : Nat
  /-- The first iteration after the ban. -/
  endsAt : Nat

/-- The number of matches at once that a rule is allowed before its first ban. -/
def matchLimit : Nat := 1000

/-- The number of iterations of a first ban. -/
def banLength : Nat := 5

/-- The roots of all classes. -/
def roots (g : EGraph) : List ClassId :=
  (List.range g.links.size).filter fun i => g.links[i]? = some i

/-- All matches of a template in the classes listed, unless there are more than `limit`. -/
def findAll? (g : EGraph) (t : Template) (limit : Nat) :
    List ClassId → Nat → Array Match → Option (Array Match)
  | [], _, found => some found
  | i :: rest, count, found =>
    let here := t.matchesIn g i
    let count := count + here.length
    if limit < count then none
    else findAll? g t limit rest count (here.foldl (fun found b => found.push ⟨i, b⟩) found)

/-- The matches of a rule in an iteration, and its ban after the search. -/
def search (g : EGraph) (places : List ClassId) (iteration : Nat) (rule : Rule) (ban : Ban) :
    Array Match × Ban :=
  if iteration < ban.endsAt then (#[], ban)
  else
    let factor := Nat.pow 2 ban.count
    match findAll? g rule.left (matchLimit * factor) places 0 #[] with
    | some found => (found, ban)
    | none => (#[], ⟨ban.count + 1, iteration + banLength * factor⟩)

/-- An e-graph that rules are being applied to. -/
structure Progress where
  /-- The e-graph. -/
  graph : EGraph
  /-- Whether classes have been merged. -/
  changed : Bool
  /-- Whether the e-graph has more nodes than allowed. -/
  full : Bool

/-- Applies a rule at one place, if its condition holds there. -/
def applyMatch (rule : Rule) (state : EGraph × Bool) (found : Match) : EGraph × Bool :=
  let (g, changed) := state
  if rule.guard?.all (Guard.holds g found.bindings) then
    let (g, i) := rule.right.enter g found.bindings
    let (g, merged) := g.merge i found.place
    (g, changed || merged)
  else (g, changed)

/-- Applies a rule at all places, unless there are too many nodes already. -/
def applyRule (nodes : Nat) (p : Progress) (rule : Rule) (found : Array Match) : Progress :=
  if p.full then p
  else
    let (g, changed) := found.foldl (applyMatch rule) (p.graph, p.changed)
    let full := nodes < g.indexSize
    ⟨g, changed, full⟩

/-- Shortens all bans so that the first of them ends. -/
def shorten (iteration : Nat) (bans : List Ban) : List Ban :=
  let running := bans.filter fun b => iteration < b.endsAt
  match running.map Ban.endsAt with
  | [] => bans
  | e :: rest =>
    let delta := rest.foldl min e - iteration
    bans.map fun b => if iteration < b.endsAt then ⟨b.count, b.endsAt - delta⟩ else b

/-- Runs a number of iterations; `iteration` counts from zero. -/
def iterate (rules : List Rule) (nodes : Nat) : Nat → Nat → List Ban → EGraph → EGraph
  | 0, _, _, g => g
  | left + 1, iteration, bans, g =>
    if nodes < g.indexSize then g
    else
      let places := roots g
      let searched := (rules.zip bans).map fun (rule, ban) => search g places iteration rule ban
      let bans := searched.map Prod.snd
      let p := (rules.zip (searched.map Prod.fst)).foldl
        (fun p (rule, found) => applyRule nodes p rule found) ⟨g, false, false⟩
      let g := p.graph.rebuild
      if p.full then g
      else if p.changed then iterate rules nodes left (iteration + 1) bans g
      else if bans.any fun b => iteration < b.endsAt then
        iterate rules nodes left (iteration + 1) (shorten iteration bans) g
      else g

end Saturation

/-- The e-graph of a term, and the class of the term. -/
def EGraph.ofTerm (t : OpTerm) : EGraph × ClassId :=
  let (g, i) := EGraph.empty.addTerm t
  (g.rebuild, i)

/-- Adds to an e-graph what rules tell about its terms. -/
def EGraph.saturate (rules : List Rule) (limits : SaturationLimits) (g : EGraph) : EGraph :=
  Saturation.iterate rules limits.nodes limits.iterations 0 (rules.map fun _ => ⟨0, 0⟩) g

end SymbolicAlgebra
