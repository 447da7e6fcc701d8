import Mathlib.Data.List.Forall2
import SymbolicAlgebra.Expr.Children

/-!
# Traversals

The traversals of expressions go through lists of operands by companions of their own. Here the
companions are shown to be maps, so that each traversal has one equation for each kind of node.

`Expr.mapBottomUpM_foretells` compares two bottom-up transformations of which one may give up: where
it comes through and the other does the same to each node, both have the same result.
-/

namespace SymbolicAlgebra

variable {α β : Type} {m : Type → Type}

/-- A sequence of computations has a result only where each of them has one. -/
theorem bind_eq_ok {ε : Type} {x : Except ε α} {f : α → Except ε β} {b : β}
    (h : x >>= f = .ok b) : ∃ a, x = .ok a ∧ f a = .ok b := by
  cases x with
  | error fault => cases h
  | ok a => exact ⟨a, rfl, h⟩

/-- Where the first computation has a result, the second returns it without any other effect. -/
def Foretells [Monad m] (x : Option α) (y : m α) : Prop := ∀ a, x = some a → y = pure a

/-- A value that is there foretells the same value. -/
theorem Foretells.pure [Monad m] (a : α) : Foretells (some a) (pure a : m α) := by
  rintro b ⟨⟩
  rfl

/-- Steps that foretell each other do so in sequence. -/
theorem Foretells.bind [Monad m] [LawfulMonad m] {x : Option α} {y : m α} {f : α → Option β}
    {g : α → m β} (h : Foretells x y) (hfg : ∀ a, Foretells (f a) (g a)) :
    Foretells (x >>= f) (y >>= g) := by
  intro b hb
  obtain ⟨a, ha, hb⟩ := Option.bind_eq_some_iff.mp hb
  rw [h a ha, pure_bind]
  exact hfg a b hb

/-! ## The points and bounds of a set -/

/-- In the identity monad a traversal of a list maps it. -/
theorem run_mapM_pure (f : Expr → Expr) (es : List Expr) :
    Id.run (es.mapM fun e => pure (f e)) = es.map f :=
  List.idRun_mapM

namespace SetExpr

variable (f : Expr → Expr)

@[simp]
theorem mapEntities_empty : SetExpr.empty.mapEntities f = .empty := rfl

/-- Mapped points that have become the same are listed once. -/
@[simp]
theorem mapEntities_finite (es : List Expr) :
    (SetExpr.finite es).mapEntities f = .finite (distinct (es.map f)) := by
  rw [← run_mapM_pure]
  rfl

@[simp]
theorem mapEntities_interval (l r : Expr) (lc rc : Bool) :
    (SetExpr.interval l lc r rc).mapEntities f = .interval (f l) lc (f r) rc := rfl

@[simp]
theorem mapEntities_union (a b : SetExpr) :
    (SetExpr.union a b).mapEntities f = .union (a.mapEntities f) (b.mapEntities f) := rfl

@[simp]
theorem mapEntities_intersection (a b : SetExpr) :
    (SetExpr.intersection a b).mapEntities f = .intersection (a.mapEntities f) (b.mapEntities f) :=
  rfl

end SetExpr

namespace Expr

/-! ## Values from the bottom up -/

/-- The values of a list of operands are found one by one. -/
theorem foldAll_eq_map (f : Expr → List α → α) (es : List Expr) :
    foldAll f es = es.map (fold f) := by
  induction es with
  | nil => rfl
  | cons e es ih => rw [foldAll, ih, List.map_cons]

/-! ## Transformations from the bottom up -/

/-- What a transformation of a list of operands returns. -/
theorem mapBottomUpAllM_eq_some_iff {f : Expr → Option Expr} {es es' : List Expr} :
    mapBottomUpAllM f es = some es' ↔
      List.Forall₂ (fun e e' => mapBottomUpM f e = some e') es es' := by
  induction es generalizing es' with
  | nil => simp [mapBottomUpAllM, eq_comm]
  | cons e es ih =>
    simp only [mapBottomUpAllM, Option.bind_eq_bind, Option.pure_def, Option.bind_eq_some_iff, ih,
      List.forall₂_cons_left_iff]
    constructor
    · rintro ⟨e', he, es', hes, h⟩
      exact ⟨e', es', he, hes, (Option.some.inj h).symm⟩
    · rintro ⟨e', es', he, hes, rfl⟩
      exact ⟨e', he, es', hes, rfl⟩

section Foretells

variable [Monad m] [LawfulMonad m] {f : Expr → Option Expr} {g : Expr → m Expr}

mutual

/-- A transformation of the nodes that foretells another one does so for whole trees. -/
theorem mapBottomUpM_foretells (h : ∀ e, Foretells (f e) (g e)) :
    ∀ e : Expr, Foretells (mapBottomUpM f e) (mapBottomUpM g e)
  -- Both visit the operands in the same order, and the node itself comes last.
  | .number n => h (.number n)
  | .var v => h (.var v)
  | .boolean b => h (.boolean b)
  | .sum es => (mapBottomUpAllM_foretells h es).bind fun _ => h _
  | .product es => (mapBottomUpAllM_foretells h es).bind fun _ => h _
  | .apply _ es => (mapBottomUpAllM_foretells h es).bind fun _ => h _
  | .neg a => (mapBottomUpM_foretells h a).bind fun _ => h _
  | .not a => (mapBottomUpM_foretells h a).bind fun _ => h _
  | .power a b => (mapBottomUpM_foretells h a).bind fun _ =>
      (mapBottomUpM_foretells h b).bind fun _ => h _
  | .div a b => (mapBottomUpM_foretells h a).bind fun _ =>
      (mapBottomUpM_foretells h b).bind fun _ => h _
  | .and a b => (mapBottomUpM_foretells h a).bind fun _ =>
      (mapBottomUpM_foretells h b).bind fun _ => h _
  | .or a b => (mapBottomUpM_foretells h a).bind fun _ =>
      (mapBottomUpM_foretells h b).bind fun _ => h _
  | .compare _ a b => (mapBottomUpM_foretells h a).bind fun _ =>
      (mapBottomUpM_foretells h b).bind fun _ => h _
  | .set s => (mapBottomUpSetM_foretells h s).bind fun _ => h _
  | .mem a s => (mapBottomUpM_foretells h a).bind fun _ =>
      (mapBottomUpSetM_foretells h s).bind fun _ => h _

/-- A transformation that foretells another one does so for a list of operands. -/
theorem mapBottomUpAllM_foretells (h : ∀ e, Foretells (f e) (g e)) :
    ∀ es : List Expr, Foretells (mapBottomUpAllM f es) (mapBottomUpAllM g es)
  | [] => .pure []
  | e :: es => (mapBottomUpM_foretells h e).bind fun _ =>
      (mapBottomUpAllM_foretells h es).bind fun _ => .pure _

/-- A transformation that foretells another one does so for the points and bounds of a set. -/
theorem mapBottomUpSetM_foretells (h : ∀ e, Foretells (f e) (g e)) :
    ∀ s : SetExpr, Foretells (mapBottomUpSetM f s) (mapBottomUpSetM g s)
  | .empty => .pure SetExpr.empty
  | .finite es => (mapBottomUpAllM_foretells h es).bind fun _ => .pure _
  | .interval l _ r _ => (mapBottomUpM_foretells h l).bind fun _ =>
      (mapBottomUpM_foretells h r).bind fun _ => .pure _
  | .union a b => (mapBottomUpSetM_foretells h a).bind fun _ =>
      (mapBottomUpSetM_foretells h b).bind fun _ => .pure _
  | .intersection a b => (mapBottomUpSetM_foretells h a).bind fun _ =>
      (mapBottomUpSetM_foretells h b).bind fun _ => .pure _

end

end Foretells

/-! ## Equations of the pure transformation -/

section Pure

variable (f : Expr → Expr)

/-- Without effects the operands are transformed one by one. -/
theorem mapBottomUpAllM_pure (es : List Expr) :
    Id.run (mapBottomUpAllM (fun c => pure (f c)) es) = es.map (mapBottomUp f) := by
  induction es with
  | nil => rfl
  | cons e es ih => rw [List.map_cons, ← ih]; rfl

/-- A number is transformed as a node of its own, and so is a variable. -/
@[simp]
theorem mapBottomUp_number (n : Number) : mapBottomUp f (.number n) = f (.number n) := rfl

@[simp]
theorem mapBottomUp_var (v : String) : mapBottomUp f (.var v) = f (.var v) := rfl

/-- The operands of a sum are transformed before the sum, and so for every other node with
operands. -/
@[simp]
theorem mapBottomUp_sum (es : List Expr) :
    mapBottomUp f (.sum es) = f (.sum (es.map (mapBottomUp f))) := by
  rw [← mapBottomUpAllM_pure]
  rfl

@[simp]
theorem mapBottomUp_product (es : List Expr) :
    mapBottomUp f (.product es) = f (.product (es.map (mapBottomUp f))) := by
  rw [← mapBottomUpAllM_pure]
  rfl

@[simp]
theorem mapBottomUp_apply (g : Func) (es : List Expr) :
    mapBottomUp f (.apply g es) = f (.apply g (es.map (mapBottomUp f))) := by
  rw [← mapBottomUpAllM_pure]
  rfl

@[simp]
theorem mapBottomUp_power (b x : Expr) :
    mapBottomUp f (.power b x) = f (.power (mapBottomUp f b) (mapBottomUp f x)) := rfl

@[simp]
theorem mapBottomUp_neg (a : Expr) : mapBottomUp f (.neg a) = f (.neg (mapBottomUp f a)) := rfl

@[simp]
theorem mapBottomUp_div (a b : Expr) :
    mapBottomUp f (.div a b) = f (.div (mapBottomUp f a) (mapBottomUp f b)) := rfl

end Pure

/-! ## Occurrences of variables -/

section ContainsVar

variable (x : String)

/-- No variable occurs in a number, and none in a boolean. -/
@[simp]
theorem containsVar_number (n : Number) : containsVar x (.number n) = false := rfl

@[simp]
theorem containsVar_var (v : String) : containsVar x (.var v) = (v == x) := rfl

@[simp]
theorem containsVar_boolean (b : Bool) : containsVar x (.boolean b) = false := rfl

/-- A variable occurs in a sum if it does in an operand, and so for every other node with
operands. -/
@[simp]
theorem containsVar_sum (es : List Expr) : containsVar x (.sum es) = es.any (containsVar x) := by
  show (foldAll _ es).any id = _
  rw [foldAll_eq_map, List.any_map]
  rfl

@[simp]
theorem containsVar_product (es : List Expr) :
    containsVar x (.product es) = es.any (containsVar x) :=
  containsVar_sum x es

@[simp]
theorem containsVar_apply (f : Func) (es : List Expr) :
    containsVar x (.apply f es) = es.any (containsVar x) :=
  containsVar_sum x es

@[simp]
theorem containsVar_neg (a : Expr) : containsVar x (.neg a) = a.containsVar x := by
  show (a.containsVar x || false) = _
  rw [Bool.or_false]

@[simp]
theorem containsVar_not (a : Expr) : containsVar x (.not a) = a.containsVar x :=
  containsVar_neg x a

@[simp]
theorem containsVar_power (b k : Expr) :
    containsVar x (.power b k) = (b.containsVar x || k.containsVar x) := by
  show (b.containsVar x || (k.containsVar x || false)) = _
  rw [Bool.or_false]

@[simp]
theorem containsVar_div (a b : Expr) :
    containsVar x (.div a b) = (a.containsVar x || b.containsVar x) :=
  containsVar_power x a b

@[simp]
theorem containsVar_compare (r : Comparison) (a b : Expr) :
    containsVar x (.compare r a b) = (a.containsVar x || b.containsVar x) :=
  containsVar_power x a b

@[simp]
theorem containsVar_and (a b : Expr) :
    containsVar x (.and a b) = (a.containsVar x || b.containsVar x) :=
  containsVar_power x a b

@[simp]
theorem containsVar_or (a b : Expr) :
    containsVar x (.or a b) = (a.containsVar x || b.containsVar x) :=
  containsVar_power x a b

end ContainsVar

/-! ## Replacing the outermost nodes -/

section Replace

variable (f : Expr → Expr)

/-- A sum keeps its kind when its operands are mapped. -/
theorem mapChildren_sum (es : List Expr) : mapChildren f (.sum es) = .sum (es.map f) := by
  rw [← run_mapM_pure]
  rfl

theorem mapChildren_product (es : List Expr) :
    mapChildren f (.product es) = .product (es.map f) := by
  rw [← run_mapM_pure]
  rfl

theorem mapChildren_apply (g : Func) (es : List Expr) :
    mapChildren f (.apply g es) = .apply g (es.map f) := by
  rw [← run_mapM_pure]
  rfl

/-- Replacing works on each expression of a list for itself. -/
theorem replaceOutermostAll_eq_map (f : Expr → Option Expr) (es : List Expr) :
    replaceOutermostAll f es = es.map (replaceOutermost f) := by
  induction es with
  | nil => rfl
  | cons e es ih => rw [replaceOutermostAll, ih, List.map_cons]

/-- Replacing works on each point and bound of a set for itself. -/
theorem replaceOutermostSet_eq_mapEntities (f : Expr → Option Expr) (s : SetExpr) :
    replaceOutermostSet f s = s.mapEntities (replaceOutermost f) := by
  induction s using SetExpr.entities.induct with
  | case1 => rw [replaceOutermostSet, SetExpr.mapEntities_empty]
  | case2 es => rw [replaceOutermostSet, replaceOutermostAll_eq_map, SetExpr.mapEntities_finite]
  | case3 l lc r rc => rw [replaceOutermostSet, SetExpr.mapEntities_interval]
  | case4 a b iha ihb => rw [replaceOutermostSet, iha, ihb, SetExpr.mapEntities_union]
  | case5 a b iha ihb => rw [replaceOutermostSet, iha, ihb, SetExpr.mapEntities_intersection]

/-- Nothing is replaced inside of what has been replaced. -/
theorem replaceOutermost_of_eq_some {f : Expr → Option Expr} {e r : Expr} (h : f e = some r) :
    replaceOutermost f e = r := by
  rw [replaceOutermost.eq_def, h]

/-- A node without an answer keeps its kind, and replacing goes on in its children. -/
theorem replaceOutermost_of_eq_none {f : Expr → Option Expr} {e : Expr} (h : f e = none) :
    replaceOutermost f e = e.mapChildren (replaceOutermost f) := by
  rw [replaceOutermost.eq_def, h]
  cases e with
  | sum es => rw [mapChildren_sum, ← replaceOutermostAll_eq_map]
  | product es => rw [mapChildren_product, ← replaceOutermostAll_eq_map]
  | apply g es => rw [mapChildren_apply, ← replaceOutermostAll_eq_map]
  | set s => simp only [replaceOutermostSet_eq_mapEntities]; rfl
  | mem a s => simp only [replaceOutermostSet_eq_mapEntities]; rfl
  | _ => rfl

end Replace

/-! ## Substitution -/

section Substitute

variable (x : String) (v : Expr)

/-- Nothing is replaced in an expression without the variable. -/
theorem substitute_of_not_containsVar {e : Expr} (h : e.containsVar x = false) :
    e.substitute x v = e :=
  replaceOutermost_of_eq_some (by rw [h, Bool.not_false, if_pos rfl])

/-- A number has no variable to be replaced. -/
theorem substitute_number (n : Number) : (Expr.number n).substitute x v = .number n := rfl

/-- The variable itself is replaced. -/
theorem substitute_var_self : (Expr.var x).substitute x v = v :=
  replaceOutermost_of_eq_some (by rw [containsVar_var, beq_self_eq_true]; rfl)

/-- Replacing goes on below a node that contains the variable and is not the variable itself. -/
theorem substitute_of_containsVar {e : Expr} (h : e.containsVar x = true)
    (hvar : ∀ w, e ≠ .var w) : e.substitute x v = e.mapChildren fun c => c.substitute x v := by
  refine replaceOutermost_of_eq_none ?_
  rw [h, Bool.not_true, if_neg Bool.false_ne_true]
  cases e with
  | var w => exact absurd rfl (hvar w)
  | _ => rfl

/-- Replacing goes on in the operands of a node with a list of them. -/
theorem substitute_operands {node : List Expr → Expr} {es : List Expr}
    (hx : (node es).containsVar x = es.any (containsVar x)) (hvar : ∀ w, node es ≠ .var w)
    (hchildren : ∀ f, (node es).mapChildren f = node (es.map f)) :
    (node es).substitute x v = node (es.map fun e => e.substitute x v) := by
  cases h : (node es).containsVar x with
  | false =>
    -- No operand contains the variable either, so that all of them stay.
    have hes : es.map (fun e => e.substitute x v) = es := by
      rw [hx, List.any_eq_false] at h
      conv_rhs => rw [← List.map_id es]
      exact List.map_congr_left fun e he =>
        substitute_of_not_containsVar x v (by simpa using h e he)
    rw [substitute_of_not_containsVar x v h, hes]
  | true => rw [substitute_of_containsVar x v h hvar, hchildren]

/-- Replacing goes on in the operand of a node with a single one. -/
theorem substitute_single {node : Expr → Expr} {a : Expr}
    (hx : (node a).containsVar x = a.containsVar x) (hvar : ∀ w, node a ≠ .var w)
    (hchildren : ∀ f, (node a).mapChildren f = node (f a)) :
    (node a).substitute x v = node (a.substitute x v) := by
  cases h : (node a).containsVar x with
  | false =>
    rw [substitute_of_not_containsVar x v h, substitute_of_not_containsVar x v (hx ▸ h)]
  | true => rw [substitute_of_containsVar x v h hvar, hchildren]

/-- Replacing goes on in the operands of a node with two of them. -/
theorem substitute_pair {node : Expr → Expr → Expr} {a b : Expr}
    (hx : (node a b).containsVar x = (a.containsVar x || b.containsVar x))
    (hvar : ∀ w, node a b ≠ .var w)
    (hchildren : ∀ f, (node a b).mapChildren f = node (f a) (f b)) :
    (node a b).substitute x v = node (a.substitute x v) (b.substitute x v) := by
  cases h : (node a b).containsVar x with
  | false =>
    obtain ⟨ha, hb⟩ := Bool.or_eq_false_iff.mp (hx ▸ h)
    rw [substitute_of_not_containsVar x v h, substitute_of_not_containsVar x v ha,
      substitute_of_not_containsVar x v hb]
  | true => rw [substitute_of_containsVar x v h hvar, hchildren]

/-- A variable is replaced in each operand of a sum, and so for every other node with operands. -/
theorem substitute_sum (es : List Expr) :
    (Expr.sum es).substitute x v = .sum (es.map fun e => e.substitute x v) :=
  substitute_operands x v (containsVar_sum x es) nofun (mapChildren_sum · es)

theorem substitute_product (es : List Expr) :
    (Expr.product es).substitute x v = .product (es.map fun e => e.substitute x v) :=
  substitute_operands x v (containsVar_product x es) nofun (mapChildren_product · es)

theorem substitute_apply (f : Func) (es : List Expr) :
    (Expr.apply f es).substitute x v = .apply f (es.map fun e => e.substitute x v) :=
  substitute_operands x v (containsVar_apply x f es) nofun (mapChildren_apply · f es)

theorem substitute_neg (a : Expr) : (Expr.neg a).substitute x v = .neg (a.substitute x v) :=
  substitute_single x v (containsVar_neg x a) nofun fun _ => rfl

theorem substitute_not (a : Expr) : (Expr.not a).substitute x v = .not (a.substitute x v) :=
  substitute_single x v (containsVar_not x a) nofun fun _ => rfl

theorem substitute_div (a b : Expr) :
    (Expr.div a b).substitute x v = .div (a.substitute x v) (b.substitute x v) :=
  substitute_pair x v (containsVar_div x a b) nofun fun _ => rfl

theorem substitute_power (b k : Expr) :
    (Expr.power b k).substitute x v = .power (b.substitute x v) (k.substitute x v) :=
  substitute_pair x v (containsVar_power x b k) nofun fun _ => rfl

theorem substitute_compare (r : Comparison) (a b : Expr) :
    (Expr.compare r a b).substitute x v = .compare r (a.substitute x v) (b.substitute x v) :=
  substitute_pair x v (containsVar_compare x r a b) nofun fun _ => rfl

theorem substitute_and (a b : Expr) :
    (Expr.and a b).substitute x v = .and (a.substitute x v) (b.substitute x v) :=
  substitute_pair x v (containsVar_and x a b) nofun fun _ => rfl

theorem substitute_or (a b : Expr) :
    (Expr.or a b).substitute x v = .or (a.substitute x v) (b.substitute x v) :=
  substitute_pair x v (containsVar_or x a b) nofun fun _ => rfl

end Substitute

end Expr

end SymbolicAlgebra
