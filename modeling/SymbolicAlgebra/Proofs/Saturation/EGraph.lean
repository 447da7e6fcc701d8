import Mathlib
import SymbolicAlgebra.Proofs.Saturation.Rule
import SymbolicAlgebra.Saturation.EGraph

/-!
# Known values in e-graphs

An e-graph that only holds terms, so that nothing has been merged in it but what constant folding
merges, tells the truth about integers: a class that is known to be an integer has this integer as
its value, `EGraph.IsOfTerms.exactValue?_eq`.

The proof gives every class a value, `EGraph.Valued`. A node has the value of the class that it is
entered under, two names of one class have equal values, and what is known of a class is its value.
A new class gets the value of its first node, which changes none of the older values, and classes
are only merged when their values are equal.
-/

namespace SymbolicAlgebra

variable {ρ : Assignment}

/-- A shorter stack holds nothing new. -/
theorem mem_of_mem_pop {α : Type} {a : α} {as : Array α} (h : a ∈ as.pop) : a ∈ as := by
  rw [Array.mem_def, Array.toList_pop] at h
  exact Array.mem_def.mpr (List.dropLast_subset _ h)

/-! ## Folding a node -/

namespace OpNode

variable {α : Type} {v v' : α → Option ℚ} {n : OpNode α}

/-- The value of a node depends on the values of its operands only. -/
theorem exactValue?_congr (h : ∀ a ∈ n.operands, v a = v' a) :
    n.exactValue? ρ v = n.exactValue? ρ v' := by
  cases n with
  | num k => rfl
  | symbol s => rfl
  | unary op a => simp only [exactValue?, h a (by simp [operands])]
  | binary op a b => simp only [exactValue?, h a (by simp [operands]), h b (by simp [operands])]

/-- A node with renamed names has the value under the renamed values. -/
theorem exactValue?_map {β : Type} (f : β → α) (m : OpNode β) :
    (m.map f).exactValue? ρ v = m.exactValue? ρ (v ∘ f) := by
  cases m <;> rfl

/-- The names in a node are renamed one by one. -/
theorem operands_map {β : Type} (f : β → α) (m : OpNode β) :
    (m.map f).operands = m.operands.map f := by
  cases m <;> rfl

/-- An integer quotient without a rest is the quotient. -/
theorem exactQuotient?_eq {a b c : ℤ} (h : OpNode.exactQuotient? a b = some c) :
    SymbolicAlgebra.exactQuotient? (a : ℚ) b = some (c : ℚ) := by
  rw [OpNode.exactQuotient?] at h
  split_ifs at h with hb
  obtain ⟨hb, hmod⟩ := hb
  obtain rfl := Option.some.inj h
  refine exactQuotient?_eq_some_iff.mpr ⟨Int.cast_ne_zero.mpr hb, ?_⟩
  rw [Int.cast_div (Int.dvd_of_emod_eq_zero hmod) (Int.cast_ne_zero.mpr hb)]

/-- A computed power of integers is the power. -/
theorem smallPower?_eq {a k c : ℤ} (h : smallPower? a k = some c) :
    exactPower? (a : ℚ) k = some (c : ℚ) := by
  rw [smallPower?] at h
  split_ifs at h with hk
  obtain rfl := Option.some.inj h
  obtain ⟨n, rfl⟩ := Int.eq_ofNat_of_zero_le hk.1
  rw [exactPower?_intCast fun _ => hk.1, integerPower_eq_pow, Int.toNat_natCast, zpow_natCast,
    Int.cast_pow]

/-- A node is folded to its value, when what is known of its operands are their values. -/
theorem exactValue?_eq_of_fold? {known? : α → Option ℤ} {c : ℤ}
    (hknown : ∀ a k, known? a = some k → v a = some (k : ℚ)) (h : n.fold? known? = some c) :
    n.exactValue? ρ v = some (c : ℚ) := by
  cases n with
  | num k => simpa [fold?, exactValue?] using h
  | symbol s => simp [fold?] at h
  | unary op a =>
    cases op with
    | neg =>
      obtain ⟨x, hx, rfl⟩ := Option.map_eq_some_iff.mp h
      simp [exactValue?, UnaryOp.value?, hknown a x hx]
    | _ => simp [fold?] at h
  | binary op a b =>
    -- Every operation with two operands asks for the integers of both.
    have hoperands : ∀ {f : ℤ → ℤ → Option ℤ},
        ((known? a).bind fun x => (known? b).bind (f x)) = some c →
          ∃ x y : ℤ, v a = some (x : ℚ) ∧ v b = some (y : ℚ) ∧ f x y = some c := by
      intro f hf
      obtain ⟨x, hx, hf⟩ := Option.bind_eq_some_iff.mp hf
      obtain ⟨y, hy, hf⟩ := Option.bind_eq_some_iff.mp hf
      exact ⟨x, y, hknown a x hx, hknown b y hy, hf⟩
    cases op with
    | add =>
      obtain ⟨x, y, hx, hy, ⟨⟩⟩ := hoperands (f := fun x y => some (x + y)) h
      simp [exactValue?, BinaryOp.value?, hx, hy]
    | sub =>
      obtain ⟨x, y, hx, hy, ⟨⟩⟩ := hoperands (f := fun x y => some (x - y)) h
      simp [exactValue?, BinaryOp.value?, hx, hy]
    | mul =>
      obtain ⟨x, y, hx, hy, ⟨⟩⟩ := hoperands (f := fun x y => some (x * y)) h
      simp [exactValue?, BinaryOp.value?, hx, hy]
    | div =>
      obtain ⟨x, y, hx, hy, hq⟩ := hoperands (f := OpNode.exactQuotient?) h
      simpa [exactValue?, BinaryOp.value?, hx, hy] using exactQuotient?_eq hq
    | pow =>
      obtain ⟨x, y, hx, hy, hk⟩ := hoperands (f := smallPower?) h
      simpa [exactValue?, BinaryOp.value?, hx, hy] using smallPower?_eq hk

end OpNode

namespace EGraph

variable {v v' : ℕ → Option ℚ} {g : EGraph} {n : ENode} {i j : ℕ}

/-! ## Valued e-graphs -/

/-- What is stored under a name, whether it is a root or not. -/
def stored? (g : EGraph) (i : ℕ) : Option ℤ := (g.classes.getD i default).value?

/-- The places where a node stands together with its class. -/
def Lists (g : EGraph) (n : ENode) (i : ℕ) : Prop :=
  g.index[n]? = some i ∨ (n, i) ∈ g.pending ∨ (n, i) ∈ g.stale ∨
    ∃ j, (n, i) ∈ (g.classes.getD j default).users

/-- The names in a node and the one of its class are in use, and the node has the value of the
class. -/
structure Fits (ρ : Assignment) (v : ℕ → Option ℚ) (size : ℕ) (n : ENode) (i : ℕ) :
    Prop where
  operands_lt : ∀ a : ℕ, a ∈ n.operands → a < size
  lt : i < size
  value : n.exactValue? ρ v = v i

/-- `v` gives each class a value: names of one class have equal values, nodes have the values of
their classes, and the integers that are known are values. -/
structure Valued (ρ : Assignment) (v : ℕ → Option ℚ) (g : EGraph) : Prop where
  size : g.classes.size = g.links.size
  link_lt : ∀ {i j : ℕ}, g.links[i]? = some j → j < g.links.size
  link_eq : ∀ {i j : ℕ}, g.links[i]? = some j → v j = v i
  fits : ∀ {n i}, g.Lists n i → Fits ρ v g.links.size n i
  known : ∀ {i c}, g.stored? i = some c → v i = some (c : ℚ)

namespace Valued

/-- Following links does not change the value of a name. -/
theorem rootWithin_eq (h : Valued ρ v g) (steps : ℕ) (i : ℕ) :
    v (rootWithin g.links steps i) = v i := by
  induction steps generalizing i with
  | zero => rfl
  | succ steps ih =>
    rw [rootWithin]
    split
    · next j hj =>
      split_ifs with hji
      · rfl
      · rw [ih, h.link_eq hj]
    · rfl

/-- Following links ends at a name in use. -/
theorem rootWithin_lt (h : Valued ρ v g) (steps : ℕ) (hi : i < g.links.size) :
    rootWithin g.links steps i < g.links.size := by
  induction steps generalizing i with
  | zero => exact hi
  | succ steps ih =>
    rw [rootWithin]
    split
    · next j hj =>
      split_ifs with hji
      · exact hi
      · exact ih (h.link_lt hj)
    · exact hi

/-- The root of a class has the value of the class. -/
theorem root_eq (h : Valued ρ v g) (i : ℕ) : v (g.root i) = v i := h.rootWithin_eq _ i

/-- The root of a name in use is in use. -/
theorem root_lt (h : Valued ρ v g) (hi : i < g.links.size) : g.root i < g.links.size :=
  h.rootWithin_lt _ hi

/-- What is known of a class is the value of each of its names. -/
theorem eq_of_value? (h : Valued ρ v g) {c : ℤ} (hc : g.value? i = some c) :
    v i = some (c : ℚ) := by
  rw [← h.root_eq]
  exact h.known hc

/-- Roots instead of other names keep the value of a node. -/
theorem exactValue?_canonical (h : Valued ρ v g) (n : ENode) :
    (g.canonical n).exactValue? ρ v = n.exactValue? ρ v := by
  rw [canonical, OpNode.exactValue?_map]
  exact OpNode.exactValue?_congr fun a _ => h.root_eq a

/-- The roots in a node are in use if the names are. -/
theorem canonical_lt (h : Valued ρ v g) (hn : ∀ a : ℕ, a ∈ n.operands → a < g.links.size) :
    ∀ a : ℕ, a ∈ (g.canonical n).operands → a < g.links.size := by
  intro a ha
  rw [canonical, OpNode.operands_map] at ha
  obtain ⟨b, hb, rfl⟩ := List.mem_map.mp ha
  exact h.root_lt (hn b hb)

/-- Values of names that are not in use do not matter. -/
theorem congr (h : Valued ρ v g) (hv : ∀ i < g.links.size, v' i = v i) : Valued ρ v' g where
  size := h.size
  link_lt := h.link_lt
  link_eq {i j} hj := by
    have hi : i < g.links.size := by
      by_contra hi
      rw [Array.getElem?_eq_none (Nat.le_of_not_lt hi)] at hj
      cases hj
    rw [hv j (h.link_lt hj), hv i hi, h.link_eq hj]
  fits {n i} hn := by
    obtain ⟨hops, hi, hval⟩ := h.fits hn
    refine ⟨hops, hi, ?_⟩
    rw [hv i hi, ← hval]
    exact OpNode.exactValue?_congr fun a ha => hv a (hops a ha)
  known {i c} hc := by
    have hi : i < g.links.size := by
      by_contra hi
      rw [stored?, Array.getD_eq_getD_getElem?,
        Array.getElem?_eq_none (h.size ▸ Nat.le_of_not_lt hi)] at hc
      cases hc
    rw [hv i hi]
    exact h.known hc

end Valued

/-! ## A new class -/

/-- The second e-graph differs from the first one in classes that have got the node as a user. -/
structure Registers (n : ENode) (i : ℕ) (g g' : EGraph) : Prop where
  links : g'.links = g.links
  index : g'.index = g.index
  pending : g'.pending = g.pending
  stale : g'.stale = g.stale
  size : g'.classes.size = g.classes.size
  stored : ∀ j, g'.stored? j = g.stored? j
  users : ∀ j, ∀ p ∈ (g'.classes.getD j default).users,
    p ∈ (g.classes.getD j default).users ∨ p = (n, i)

/-- Adding a user to the operands of a node registers the node with them, and does nothing else. -/
theorem registers_addUser (g : EGraph) (n : ENode) (i : ℕ) :
    Registers n i g (g.addUser n i) := by
  rw [addUser]
  generalize n.operands = as
  induction as generalizing g with
  | nil => exact ⟨rfl, rfl, rfl, rfl, rfl, fun _ => rfl, fun _ _ => .inl⟩
  | cons a as ih =>
    rw [List.foldl_cons]
    refine ⟨(ih _).links, (ih _).index, (ih _).pending, (ih _).stale, ?_, fun j => ?_,
      fun j p hp => ?_⟩
    · rw [(ih _).size, Array.size_modify]
    · rw [(ih _).stored, stored?, stored?, Array.getD_eq_getD_getElem?, Array.getElem?_modify,
        Array.getD_eq_getD_getElem?]
      split_ifs
      · cases g.classes[j]? <;> rfl
      · rfl
    -- The class of this operand has one user more.
    · rcases (ih _).users j p hp with hp | hp
      · rw [Array.getD_eq_getD_getElem?, Array.getElem?_modify] at hp
        rw [Array.getD_eq_getD_getElem?]
        split_ifs at hp
        · cases hj : g.classes[j]? with
          | none => rw [hj] at hp; exact .inl hp
          | some c => simpa [hj] using hp
        · exact .inl hp
      · exact .inr hp

/-- A new class is a root of its own. -/
theorem links_newClass (g : EGraph) (n : ENode) :
    (g.newClass n).1.links = g.links.push g.links.size :=
  congrArg (·.push g.links.size) (registers_addUser g n g.links.size).links

/-- A new class takes one new name. -/
theorem size_links_newClass (g : EGraph) (n : ENode) :
    (g.newClass n).1.links.size = g.links.size + 1 := by
  rw [links_newClass, Array.size_push]

/-- The new class is all that is listed besides what was there. -/
theorem lists_newClass {m : ENode} (h : (g.newClass n).1.Lists m j) :
    g.Lists m j ∨ m = n ∧ j = g.links.size := by
  have hreg := registers_addUser g n g.links.size
  rcases h with h | h | h | ⟨k, h⟩
  -- The lists in turn: the index, what is pending, what is stale, and the users of classes.
  · change ((g.addUser n g.links.size).index.insert n g.links.size)[m]? = some j at h
    rw [hreg.index, Std.HashMap.getElem?_insert] at h
    split_ifs at h with hnm
    · exact .inr ⟨(eq_of_beq hnm).symm, (Option.some.inj h).symm⟩
    · exact .inl (.inl h)
  · change _ ∈ (g.addUser n g.links.size).pending.push (n, g.links.size) at h
    rw [hreg.pending, Array.mem_push] at h
    exact h.elim (fun h => .inl (.inr (.inl h))) fun h => .inr (Prod.mk.inj h)
  · change _ ∈ (g.addUser n g.links.size).stale at h
    exact .inl (.inr (.inr (.inl (hreg.stale ▸ h))))
  · change _ ∈ (((g.addUser n g.links.size).classes.push ⟨#[n], #[], g.nodeValue? n⟩).getD k
      default).users at h
    rw [Array.getD_eq_getD_getElem?, Array.getElem?_push] at h
    split_ifs at h with hk
    · simp at h
    · rw [← Array.getD_eq_getD_getElem?] at h
      exact (hreg.users k _ h).elim (fun h => .inl (.inr (.inr (.inr ⟨k, h⟩))))
        fun h => .inr (Prod.mk.inj h)

/-- What is known of the new class comes from its node. -/
theorem stored?_newClass {c : ℤ} (h : (g.newClass n).1.stored? j = some c) :
    g.stored? j = some c ∨ j = g.classes.size ∧ g.nodeValue? n = some c := by
  have hreg := registers_addUser g n g.links.size
  change (((g.addUser n g.links.size).classes.push ⟨#[n], #[], g.nodeValue? n⟩).getD j
    default).value? = some c at h
  rw [Array.getD_eq_getD_getElem?, Array.getElem?_push] at h
  split_ifs at h with hj
  · exact .inr ⟨hj.trans hreg.size, h⟩
  · rw [← Array.getD_eq_getD_getElem?] at h
    exact .inl ((hreg.stored j).symm.trans h)

/-- A later e-graph in which the older names keep their values. -/
structure Grows (ρ : Assignment) (v v' : ℕ → Option ℚ) (g g' : EGraph) : Prop where
  size_le : g.links.size ≤ g'.links.size
  agree : ∀ i < g.links.size, v' i = v i
  valued : Valued ρ v' g'

namespace Grows

/-- An e-graph grows into itself. -/
theorem refl (h : Valued ρ v g) : Grows ρ v v g g := ⟨le_rfl, fun _ _ => rfl, h⟩

/-- An e-graph with other lists and the same names grows into the same. -/
theorem of_links {g₁ g' : EGraph} (h : Grows ρ v v' g₁ g') (hlinks : g₁.links = g.links) :
    Grows ρ v v' g g' where
  size_le := hlinks ▸ h.size_le
  agree := hlinks ▸ h.agree
  valued := h.valued

/-- Growing in two steps is growing. -/
theorem trans {v'' : ℕ → Option ℚ} {g' g'' : EGraph} (h : Grows ρ v v' g g')
    (h' : Grows ρ v' v'' g' g'') : Grows ρ v v'' g g'' where
  size_le := h.size_le.trans h'.size_le
  agree i hi := (h'.agree i (hi.trans_le h.size_le)).trans (h.agree i hi)
  valued := h'.valued

end Grows

/-- A node that fits stays so when more names are in use. -/
theorem Fits.mono {size size' : ℕ} (h : Fits ρ v size n i) (hle : size ≤ size') :
    Fits ρ v size' n i :=
  ⟨fun a ha => (h.operands_lt a ha).trans_le hle, h.lt.trans_le hle, h.value⟩

namespace Valued

/-- A new class gets the value of its node. -/
theorem newClass (h : Valued ρ v g) (hn : ∀ a : ℕ, a ∈ n.operands → a < g.links.size) :
    Grows ρ v (Function.update v g.links.size (n.exactValue? ρ v)) g (g.newClass n).1 := by
  set v' := Function.update v g.links.size (n.exactValue? ρ v) with hv'
  -- The new index lies behind all others, so that nothing known about them is lost.
  have hagree : ∀ i < g.links.size, v' i = v i := fun i hi =>
    Function.update_of_ne (Nat.ne_of_lt hi) _ _
  have hold : Valued ρ v' g := h.congr hagree
  have hnew : n.exactValue? ρ v' = v' g.links.size := by
    rw [hv', Function.update_self]
    exact OpNode.exactValue?_congr fun a ha => hagree a (hn a ha)
  have hsize := size_links_newClass g n
  refine ⟨by omega, hagree, ?_, ?_, ?_, ?_, ?_⟩
  · change ((g.addUser n g.links.size).classes.push _).size = _
    rw [Array.size_push, (registers_addUser g n _).size, hsize, h.size]
  · intro i j hij
    rw [links_newClass, Array.getElem?_push] at hij
    split_ifs at hij
    · obtain rfl := Option.some.inj hij
      omega
    · have := hold.link_lt hij
      omega
  · intro i j hij
    rw [links_newClass, Array.getElem?_push] at hij
    split_ifs at hij with hi
    · rw [hi, Option.some.inj hij]
    · exact hold.link_eq hij
  · intro m j hm
    rcases lists_newClass hm with hm | ⟨rfl, rfl⟩
    · exact (hold.fits hm).mono (by omega)
    · exact ⟨fun a ha => by have := hn a ha; omega, by omega, hnew⟩
  · intro j c hc
    rcases stored?_newClass hc with hc | ⟨rfl, hfold⟩
    · exact hold.known hc
    · rw [h.size, ← hnew]
      exact OpNode.exactValue?_eq_of_fold? (fun a k hk => hold.eq_of_value? hk) hfold

end Valued

/-! ## Merging classes of equal values -/

/-- Reading a class after one of them has been replaced. -/
theorem getD_setIfInBounds (cs : Array EClass) (k : ℕ) (x : EClass) (j : ℕ) :
    (cs.setIfInBounds k x).getD j default =
      if j = k ∧ k < cs.size then x else cs.getD j default := by
  rw [Array.getD_eq_getD_getElem?, Array.getElem?_setIfInBounds, Array.getD_eq_getD_getElem?]
  by_cases hj : k = j
  · subst hj
    by_cases hk : k < cs.size
    · simp [hk]
    · simp [hk]
  · rw [if_neg hj, if_neg fun h => hj h.1.symm]

/-- The second e-graph is the first one with a class merged into another. -/
structure Merges (kept dropped : ℕ) (g g' : EGraph) : Prop where
  links : g'.links = g.links.setIfInBounds dropped kept
  size : g'.classes.size = g.classes.size
  lists : ∀ {n i}, g'.Lists n i → g.Lists n i
  stored : ∀ {i c}, g'.stored? i = some c →
    g.stored? i = some c ∨ i = kept ∧ (g.value? kept = some c ∨ g.value? dropped = some c)

/-- Merging two classes leaves the root of either and drops the other one. -/
theorem link_cases (g : EGraph) (a b : ℕ) :
    (g.link a b).1 = g ∨ ∃ kept dropped, Merges kept dropped g (g.link a b).1 ∧
      (kept = g.root a ∧ dropped = g.root b ∨ kept = g.root b ∧ dropped = g.root a) := by
  by_cases hroot : g.root a = g.root b
  · exact .inl (by rw [link]; simp [hroot])
  obtain ⟨kept, dropped, hpair, hkd⟩ : ∃ kept dropped,
      (if (g.classOf (g.root a)).users.size < (g.classOf (g.root b)).users.size then
        (g.root b, g.root a) else (g.root a, g.root b)) = (kept, dropped) ∧
      (kept = g.root a ∧ dropped = g.root b ∨ kept = g.root b ∧ dropped = g.root a) := by
    split_ifs
    · exact ⟨_, _, rfl, .inr ⟨rfl, rfl⟩⟩
    · exact ⟨_, _, rfl, .inl ⟨rfl, rfl⟩⟩
  refine .inr ⟨kept, dropped, ?_, hkd⟩
  rw [link]
  simp only [if_neg hroot, hpair]
  refine ⟨rfl, by simp, ?_, ?_⟩
  · -- The users of the two classes are all that is put somewhere else.
    have husers : ∀ {n i k}, (n, i) ∈ (g.classOf k).users → g.Lists n i :=
      fun h => .inr (.inr (.inr ⟨_, h⟩))
    rintro n i (h | h | h | ⟨k, h⟩)
    · exact .inl h
    · exact (Array.mem_append.mp h).elim (fun h => .inr (.inl h)) husers
    · dsimp only at h
      split at h
      · exact (Array.mem_append.mp h).elim (fun h => .inr (.inr (.inl h))) husers
      · exact (Array.mem_append.mp h).elim (fun h => .inr (.inr (.inl h))) husers
      · exact .inr (.inr (.inl h))
    · rw [getD_setIfInBounds] at h
      split_ifs at h
      · exact (Array.mem_append.mp h).elim husers husers
      · rw [getD_setIfInBounds] at h
        split_ifs at h
        · exact absurd h (Array.not_mem_empty _)
        · exact .inr (.inr (.inr ⟨k, h⟩))
  · intro i c h
    rw [stored?, getD_setIfInBounds] at h
    split_ifs at h with hi
    · refine .inr ⟨hi.1, ?_⟩
      change ((g.value? kept).or (g.value? dropped)) = some c at h
      rcases Option.or_eq_some_iff.mp h with h | h
      · exact .inl h
      · exact .inr h.2
    · rw [getD_setIfInBounds] at h
      split_ifs at h
      · cases h
      · exact .inl h

namespace Valued

/-- Classes of equal values may be merged. -/
theorem link (h : Valued ρ v g) {a b : ℕ} (ha : a < g.links.size) (hb : b < g.links.size)
    (hab : v a = v b) : Grows ρ v v g (g.link a b).1 := by
  rcases link_cases g a b with hg | ⟨kept, dropped, hg, hkd⟩
  · rw [hg]
    exact .refl h
  -- Both roots are in use, and they have one value.
  obtain ⟨hlt, hval⟩ : kept < g.links.size ∧ v kept = v dropped := by
    rcases hkd with ⟨rfl, rfl⟩ | ⟨rfl, rfl⟩
    · exact ⟨h.root_lt ha, by rw [h.root_eq, h.root_eq, hab]⟩
    · exact ⟨h.root_lt hb, by rw [h.root_eq, h.root_eq, hab]⟩
  have hsize : (g.link a b).1.links.size = g.links.size := by
    rw [hg.links, Array.size_setIfInBounds]
  refine ⟨hsize.ge, fun _ _ => rfl, by rw [hg.size, hsize, h.size], ?_, ?_, ?_, ?_⟩
  · intro i j hij
    rw [hg.links, Array.getElem?_setIfInBounds] at hij
    split_ifs at hij
    · obtain rfl := Option.some.inj hij
      omega
    · have := h.link_lt hij
      omega
  · intro i j hij
    rw [hg.links, Array.getElem?_setIfInBounds] at hij
    split_ifs at hij with hi
    · obtain rfl := Option.some.inj hij
      rw [hval, hi]
    · exact h.link_eq hij
  · intro n i hn
    rw [hsize]
    exact h.fits (hg.lists hn)
  · intro i c hc
    rcases hg.stored hc with hc | ⟨rfl, hc | hc⟩
    · exact h.known hc
    · exact h.eq_of_value? hc
    · rw [hval]
      exact h.eq_of_value? hc

/-- What is listed and what is known may change, as long as it fits to the values. -/
theorem update {g' : EGraph} (h : Valued ρ v g) (hlinks : g'.links = g.links)
    (hsize : g'.classes.size = g.classes.size)
    (hfits : ∀ {n i}, g'.Lists n i → Fits ρ v g.links.size n i)
    (hknown : ∀ {i c}, g'.stored? i = some c → v i = some (c : ℚ)) : Valued ρ v g' where
  size := by rw [hsize, hlinks, h.size]
  link_lt := by
    rw [hlinks]
    exact h.link_lt
  link_eq := by
    rw [hlinks]
    exact h.link_eq
  fits := by
    rw [hlinks]
    exact hfits
  known := hknown

/-- A class may lose nodes, and it may get to know its value. -/
theorem modify (h : Valued ρ v g) {k : ℕ} {f : EClass → EClass}
    (husers : ∀ c, (f c).users = c.users)
    (hvalue : ∀ c x, (f c).value? = some x → c.value? = some x ∨ v k = some (x : ℚ)) :
    Valued ρ v { g with classes := g.classes.modify k f } := by
  have hget : ∀ j, (g.classes.modify k f).getD j default = g.classes.getD j default ∨
      j = k ∧ (g.classes.modify k f).getD j default = f (g.classes.getD j default) := by
    intro j
    rw [Array.getD_eq_getD_getElem?, Array.getElem?_modify, Array.getD_eq_getD_getElem?]
    split_ifs with hj
    · cases g.classes[j]? with
      | none => exact .inl rfl
      | some c => exact .inr ⟨hj.symm, rfl⟩
    · exact .inl rfl
  refine h.update rfl (Array.size_modify ..) ?_ ?_
  · rintro n i (hn | hn | hn | ⟨j, hn⟩)
    · exact h.fits (.inl hn)
    · exact h.fits (.inr (.inl hn))
    · exact h.fits (.inr (.inr (.inl hn)))
    · refine h.fits (.inr (.inr (.inr ⟨j, ?_⟩)))
      rcases hget j with hj | ⟨-, hj⟩
      · exact hj ▸ hn
      · exact husers _ ▸ hj ▸ hn
  · intro i c hc
    rcases hget i with hi | ⟨rfl, hi⟩
    · exact h.known ((congrArg EClass.value? hi).symm.trans hc)
    · exact (hvalue _ c ((congrArg EClass.value? hi).symm.trans hc)).elim h.known id

end Valued

/-! ## Adding nodes -/

/-- The class of a node has the value of the node. -/
structure Enters (ρ : Assignment) (v : ℕ → Option ℚ) (g : EGraph) (q : Option ℚ)
    (r : EGraph × ClassId) : Prop where
  grows : ∃ v', Grows ρ v v' g r.1 ∧ v' r.2 = q
  lt : r.2 < r.1.links.size

namespace Valued

/-- A node that is found has a class with its value. -/
theorem lookup?_eq (h : Valued ρ v g) (hi : g.lookup? n = some i) :
    i < g.links.size ∧ v i = n.exactValue? ρ v := by
  obtain ⟨j, hj, rfl⟩ := Option.map_eq_some_iff.mp hi
  have hfits := h.fits (.inl hj)
  exact ⟨h.root_lt hfits.lt, by rw [h.root_eq, ← hfits.value, h.exactValue?_canonical]⟩

/-- Entering a node makes the e-graph grow, and gives a name with the value of the node. -/
theorem enter (h : Valued ρ v g) (hn : ∀ a : ℕ, a ∈ n.operands → a < g.links.size) :
    Enters ρ v g (n.exactValue? ρ v) (g.enter n) := by
  rw [EGraph.enter]
  split
  · next i hi =>
    obtain ⟨hlt, hval⟩ := h.lookup?_eq hi
    exact ⟨⟨v, .refl h, hval⟩, hlt⟩
  · refine ⟨⟨_, h.newClass (h.canonical_lt hn), ?_⟩, ?_⟩
    · rw [h.exactValue?_canonical]
      exact Function.update_self ..
    · rw [size_links_newClass]
      exact Nat.lt_succ_self _

/-- A class is merged with the literal that it is known to be equal to. -/
theorem settle (h : Valued ρ v g) (hi : i < g.links.size) : ∃ v', Grows ρ v v' g (g.settle i) := by
  rw [EGraph.settle]
  split
  · exact ⟨v, .refl h⟩
  · next c hc =>
    obtain ⟨⟨v', hgrows, hval⟩, hlt⟩ := h.enter (n := .num c) (by simp [OpNode.operands])
    have hsame : v' i = v' (g.enter (.num c)).2 := by
      rw [hgrows.agree i hi, hval, h.eq_of_value? hc]
      rfl
    have hlink := hgrows.valued.link (hi.trans_le hgrows.size_le) hlt hsame
    exact ⟨v', hgrows.trans ⟨hlink.size_le, hlink.agree,
      hlink.valued.modify (fun _ => rfl) fun _ _ => .inl⟩⟩

/-- Adding a node makes the e-graph grow, and gives a name with the value of the node. -/
theorem add (h : Valued ρ v g) (hn : ∀ a : ℕ, a ∈ n.operands → a < g.links.size) :
    Enters ρ v g (n.exactValue? ρ v) (g.add n) := by
  have henter := h.enter hn
  rw [EGraph.enter] at henter
  rw [EGraph.add]
  split
  · next i hi =>
    rw [hi] at henter
    exact henter
  · next hi =>
    rw [hi] at henter
    obtain ⟨⟨v', hgrows, hval⟩, hlt⟩ := henter
    obtain ⟨v'', hsettle⟩ := hgrows.valued.settle hlt
    exact ⟨⟨v'', hgrows.trans hsettle, (hsettle.agree _ hlt).trans hval⟩,
      hlt.trans_le hsettle.size_le⟩

/-- The class of a term has the value of the term. -/
theorem addTerm (h : Valued ρ v g) (t : OpTerm) :
    Enters ρ v g (t.exactValue? ρ) (g.addTerm t) := by
  induction t generalizing v g with
  | num n => exact h.add (n := .num n) (by simp [OpNode.operands])
  | symbol s => exact h.add (n := .symbol s) (by simp [OpNode.operands])
  | unary op a iha =>
    obtain ⟨⟨v₁, hgrows₁, hval₁⟩, hlt₁⟩ := iha h
    obtain ⟨⟨v₂, hgrows₂, hval₂⟩, hlt₂⟩ :=
      hgrows₁.valued.add (n := .unary op (g.addTerm a).2) (by simpa [OpNode.operands] using hlt₁)
    refine ⟨⟨v₂, hgrows₁.trans hgrows₂, hval₂.trans ?_⟩, hlt₂⟩
    rw [OpNode.exactValue?, hval₁]
    rfl
  | binary op a b iha ihb =>
    obtain ⟨⟨v₁, hgrows₁, hval₁⟩, hlt₁⟩ := iha h
    obtain ⟨⟨v₂, hgrows₂, hval₂⟩, hlt₂⟩ := ihb hgrows₁.valued
    -- The class of the first operand is still there after the second has been added.
    have hlt : ∀ i : ℕ, i ∈ [(g.addTerm a).2, ((g.addTerm a).1.addTerm b).2] →
        i < ((g.addTerm a).1.addTerm b).1.links.size := by
      simpa using ⟨hlt₁.trans_le hgrows₂.size_le, hlt₂⟩
    obtain ⟨⟨v₃, hgrows₃, hval₃⟩, hlt₃⟩ := hgrows₂.valued.add (n := .binary op _ _) hlt
    refine ⟨⟨v₃, (hgrows₁.trans hgrows₂).trans hgrows₃, hval₃.trans ?_⟩, hlt₃⟩
    rw [OpNode.exactValue?, hval₂, hgrows₂.agree _ hlt₁, hval₁]
    rfl

end Valued

/-! ## Rebuilding -/

namespace Valued

/-- Merging classes of equal values makes the e-graph grow. -/
theorem merge (h : Valued ρ v g) {a b : ℕ} (ha : a < g.links.size) (hb : b < g.links.size)
    (hab : v a = v b) : ∃ v', Grows ρ v v' g (g.merge a b).1 := by
  have hlink := h.link ha hb hab
  rw [EGraph.merge]
  split
  · next g' heq =>
    rw [heq] at hlink
    obtain ⟨v', hsettle⟩ := hlink.valued.settle (ha.trans_le hlink.size_le)
    exact ⟨v', hlink.trans hsettle⟩
  · next g' heq =>
    rw [heq] at hlink
    exact ⟨v, hlink⟩

/-- A node fits with roots as operands too. -/
theorem canonical_fits (h : Valued ρ v g) (hn : Fits ρ v g.links.size n i) :
    Fits ρ v g.links.size (g.canonical n) i :=
  ⟨h.canonical_lt hn.operands_lt, hn.lt, (h.exactValue?_canonical n).trans hn.value⟩

/-- Putting a node back into the index makes the e-graph grow. -/
theorem restoreNode (h : Valued ρ v g) (hn : Fits ρ v g.links.size n i) :
    ∃ v', Grows ρ v v' g (g.restoreNode n i) := by
  have hcan := h.canonical_fits hn
  have hinsert : Valued ρ v { g with index := g.index.insert (g.canonical n) i } := by
    refine h.update rfl rfl ?_ h.known
    rintro m j (hm | hm)
    · rw [Std.HashMap.getElem?_insert] at hm
      split_ifs at hm with hnm
      · obtain rfl := eq_of_beq hnm
        obtain rfl := Option.some.inj hm
        exact hcan
      · exact h.fits (.inl hm)
    · exact h.fits (.inr hm)
  rw [EGraph.restoreNode]
  split
  · next j hj =>
    -- The node had been entered under a class of the same value.
    have hold := h.fits (.inl hj)
    obtain ⟨v', hmerge⟩ := hinsert.merge hold.lt hn.lt (by rw [← hold.value, hcan.value])
    exact ⟨v', hmerge.of_links rfl⟩
  · exact ⟨v, le_rfl, fun _ _ => rfl, hinsert⟩

/-- Computing what is known of a node again makes the e-graph grow. -/
theorem restoreValue (h : Valued ρ v g) (hn : Fits ρ v g.links.size n i) :
    ∃ v', Grows ρ v v' g (g.restoreValue n i) := by
  rw [EGraph.restoreValue]
  split
  · next c _ hc =>
    have hval : v (g.root i) = some (c : ℚ) := by
      rw [h.root_eq, ← hn.value]
      exact OpNode.exactValue?_eq_of_fold? (fun a k hk => h.eq_of_value? hk) hc
    have hmodify := h.modify (k := g.root i) (f := fun c' => { c' with value? := some c })
      (fun _ => rfl) fun _ x hx => .inr (Option.some.inj hx ▸ hval)
    -- The users of the class are put in line besides.
    have hstale : Valued ρ v { g with
        classes := g.classes.modify (g.root i) fun c' => { c' with value? := some c }
        stale := g.stale ++ (g.classOf (g.root i)).users } := by
      refine hmodify.update rfl rfl ?_ hmodify.known
      rintro m j (hm | hm | hm | hm)
      · exact hmodify.fits (.inl hm)
      · exact hmodify.fits (.inr (.inl hm))
      · rcases Array.mem_append.mp hm with hm | hm
        · exact hmodify.fits (.inr (.inr (.inl hm)))
        · exact h.fits (.inr (.inr (.inr ⟨_, hm⟩)))
      · exact hmodify.fits (.inr (.inr (.inr hm)))
    obtain ⟨v', hsettle⟩ := hstale.settle (h.root_lt hn.lt)
    exact ⟨v', hsettle.of_links rfl⟩
  · exact ⟨v, .refl h⟩

/-- Working off what is pending makes the e-graph grow, whatever the number of steps. -/
theorem restore (h : Valued ρ v g) (steps : ℕ) : ∃ v', Grows ρ v v' g (EGraph.restore steps g) := by
  induction steps generalizing v g with
  | zero => exact ⟨v, .refl h⟩
  | succ steps ih =>
    rw [EGraph.restore]
    split
    · next n i hlast =>
      have hmem : (n, i) ∈ g.pending := Array.mem_of_back? hlast
      -- With one entry less, less is asked of the values.
      have hpop : Valued ρ v { g with pending := g.pending.pop } := by
        refine h.update rfl rfl ?_ h.known
        rintro m j (hm | hm | hm)
        · exact h.fits (.inl hm)
        · exact h.fits (.inr (.inl (mem_of_mem_pop hm)))
        · exact h.fits (.inr (.inr hm))
      obtain ⟨v₁, hnode⟩ := hpop.restoreNode (h.fits (.inr (.inl hmem)))
      obtain ⟨v₂, hrest⟩ := ih hnode.valued
      exact ⟨v₂, (hnode.trans hrest).of_links rfl⟩
    · split
      · next n i hlast =>
        have hmem : (n, i) ∈ g.stale := Array.mem_of_back? hlast
        have hpop : Valued ρ v { g with stale := g.stale.pop } := by
          refine h.update rfl rfl ?_ h.known
          rintro m j (hm | hm | hm | hm)
          · exact h.fits (.inl hm)
          · exact h.fits (.inr (.inl hm))
          · exact h.fits (.inr (.inr (.inl (mem_of_mem_pop hm))))
          · exact h.fits (.inr (.inr (.inr hm)))
        obtain ⟨v₁, hvalue⟩ := hpop.restoreValue (h.fits (.inr (.inr (.inl hmem))))
        obtain ⟨v₂, hrest⟩ := ih hvalue.valued
        exact ⟨v₂, (hvalue.trans hrest).of_links rfl⟩
      · exact ⟨v, .refl h⟩

/-- Rebuilding makes the e-graph grow. -/
theorem rebuild (h : Valued ρ v g) : ∃ v', Grows ρ v v' g g.rebuild := by
  obtain ⟨v', hgrows⟩ := h.restore g.restoreSteps
  have h' := hgrows.valued
  have hget : ∀ j, (g.rebuild.classes.getD j default).users =
      ((EGraph.restore g.restoreSteps g).classes.getD j default).users ∧
        (g.rebuild.classes.getD j default).value? =
          ((EGraph.restore g.restoreSteps g).classes.getD j default).value? := by
    intro j
    rw [EGraph.rebuild, Array.getD_eq_getD_getElem?, Array.getElem?_map,
      Array.getD_eq_getD_getElem?]
    cases (EGraph.restore g.restoreSteps g).classes[j]? <;> exact ⟨rfl, rfl⟩
  refine ⟨v', hgrows.size_le, hgrows.agree, h'.update rfl (Array.size_map ..) ?_ ?_⟩
  · rintro n i (hn | hn | hn | ⟨j, hn⟩)
    · exact h'.fits (.inl hn)
    · exact h'.fits (.inr (.inl hn))
    · exact h'.fits (.inr (.inr (.inl hn)))
    · exact h'.fits (.inr (.inr (.inr ⟨j, (hget j).1 ▸ hn⟩)))
  · intro i c hc
    exact h'.known ((hget i).2.symm.trans hc)

end Valued

/-! ## E-graphs of terms -/

/-- In the empty e-graph there is nothing to give a value to. -/
theorem valued_empty : Valued ρ v EGraph.empty where
  size := rfl
  link_lt h := by simp [EGraph.empty] at h
  link_eq h := by simp [EGraph.empty] at h
  fits h := by
    rcases h with h | h | h | ⟨_, h⟩
    · simp [EGraph.empty] at h
    · exact absurd h (Array.not_mem_empty _)
    · exact absurd h (Array.not_mem_empty _)
    · exact absurd h (Array.not_mem_empty _)
  known h := nomatch h

/-- The e-graphs that are made by adding terms: no rule has been applied to them. -/
inductive IsOfTerms : EGraph → Prop
  | empty : IsOfTerms EGraph.empty
  | addTerm {g : EGraph} (hg : IsOfTerms g) (t : OpTerm) : IsOfTerms (g.addTerm t).1
  | rebuild {g : EGraph} (hg : IsOfTerms g) : IsOfTerms g.rebuild

/-- An e-graph that is built from terms has values at every assignment. -/
theorem IsOfTerms.exists_valued (hg : g.IsOfTerms) (ρ : Assignment) : ∃ v, Valued ρ v g := by
  induction hg with
  | empty => exact ⟨fun _ => none, valued_empty⟩
  | addTerm _ t ih =>
    obtain ⟨v, h⟩ := ih
    obtain ⟨v', hgrows, -⟩ := (h.addTerm t).grows
    exact ⟨v', hgrows.valued⟩
  | rebuild _ ih =>
    obtain ⟨v, h⟩ := ih
    obtain ⟨v', hgrows⟩ := h.rebuild
    exact ⟨v', hgrows.valued⟩

/-- A term in a class that is known to be an integer has this value. -/
theorem IsOfTerms.exactValue?_eq {c : ℤ} {t : OpTerm} (hg : g.IsOfTerms)
    (hc : (g.addTerm t).1.value? (g.addTerm t).2 = some c ∨
      (g.addTerm t).1.rebuild.value? (g.addTerm t).2 = some c) :
    t.exactValue? ρ = some (c : ℚ) := by
  obtain ⟨v, h⟩ := hg.exists_valued ρ
  obtain ⟨⟨v₁, hadd, hval⟩, hlt⟩ := h.addTerm t
  rcases hc with hc | hc
  · rw [← hval, hadd.valued.eq_of_value? hc]
  · obtain ⟨v₂, hrebuild⟩ := hadd.valued.rebuild
    rw [← hval, ← hrebuild.agree _ hlt, hrebuild.valued.eq_of_value? hc]

end EGraph

/-- The laws of fields are sound, and so is what an e-graph knows of the terms in it, before it is
rebuilt and after. -/
theorem EGraph.laws_and_known_values_sound :
    (∀ r ∈ Rule.arithmetic, ∀ (σ : ℕ → ℚ) (q : ℚ),
      r.left.exactValue? σ = some q → r.right.exactValue? σ = some q) ∧
    ∀ g : EGraph, g.IsOfTerms → ∀ (t : OpTerm) (c : ℤ),
      (g.addTerm t).1.value? (g.addTerm t).2 = some c ∨
        (g.addTerm t).1.rebuild.value? (g.addTerm t).2 = some c →
      ∀ ρ : Assignment, t.exactValue? ρ = some (c : ℚ) :=
  ⟨fun _ hr => Rule.sound_of_mem_arithmetic hr, fun _ hg _ _ hc _ => hg.exactValue?_eq hc⟩

/-- A power with a negative exponent inside another one, and a quotient of two folded literals beside
a symbol that was there before. -/
theorem EGraph.laws_and_known_values_sound_nested_power :
    (Template.pow (.hole 0) (.hole 3 * .hole 4)).exactValue?
      (fun i => if i = 0 then 2 / 3 else if i = 3 then -2 else 3) = some (729 / 64) ∧
    (OpTerm.binary .div (.binary .mul (.num 2) (.num 6)) (.binary .pow (.num 2) (.num 2))).exactValue?
      (fun _ => 0) = some ((3 : ℤ) : ℚ) := by
  obtain ⟨hlaws, hknown⟩ := EGraph.laws_and_known_values_sound
  refine ⟨hlaws
    { name := "pow-nest", left := .pow (.pow (.hole 0) (.hole 3)) (.hole 4),
      right := .pow (.hole 0) (.hole 3 * .hole 4), guard? := some (.isInteger 4) }
    (by simp [Rule.arithmetic]) _ _ ?_, ?_⟩
  · decide +kernel
  · exact hknown (EGraph.empty.addTerm (.symbol "x")).1 (.addTerm .empty _) _ 3 (.inl (by cbv)) _

end SymbolicAlgebra
