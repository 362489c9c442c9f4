import AttributeEncryption.Formula
import Mathlib.Data.List.Infix
import Mathlib.Data.List.Lex
import Mathlib.Data.Nat.Notation

/-!
# Positions in formulas

A node of a formula is found by the path that leads to it from the root. `Formula.gates` lists
the paths of the conjunctions in preorder (`mem_gates_iff`, `pairwise_gates`),
`Formula.leafPaths` those of the leaves from left to right (`mem_leafPaths_iff`).

A leaf inherits from a node above it if the path between them goes right at no conjunction
(`Formula.Inherits`). Formulas whose conjunctions stand one below the other have no more of
them than levels (`andGates_le_depth`).
-/

namespace AttributeEncryption.Formula

variable {α : Type}

/-! ## Paths -/

/-- One of the two parts of a gate. -/
inductive Side where
  | left
  | right
  deriving DecidableEq

/-- The left part comes first. -/
instance : LT Side :=
  ⟨fun a b => a = .left ∧ b = .right⟩

instance : Std.Irrefl (α := Side) (· < ·) :=
  ⟨fun _ h => nomatch h.1.symm.trans h.2⟩

/-- The way from the root of a formula to one of its nodes. Paths are compared entry by entry,
and one that ends comes before all that go on. -/
abbrev Path := List Side

/-- The part of a formula at the end of a path. -/
def node? : Formula α → Path → Option (Formula α)
  | f, [] => some f
  | and l _, .left :: p => l.node? p
  | and _ r, .right :: p => r.node? p
  | or l _, .left :: p => l.node? p
  | or _ r, .right :: p => r.node? p
  | leaf _, _ :: _ => none

/-- Paths in both parts of a gate, as paths from the gate. -/
def inParts (left right : List Path) : List Path :=
  left.map (.left :: ·) ++ right.map (.right :: ·)

theorem forall_mem_inParts {left right : List Path} {P : Path → Prop} :
    (∀ p ∈ inParts left right, P p) ↔
      (∀ p ∈ left, P (.left :: p)) ∧ ∀ p ∈ right, P (.right :: p) := by
  rw [inParts, List.forall_mem_append, List.forall_mem_map, List.forall_mem_map]

@[simp] theorem nil_mem_inParts {left right : List Path} : [] ∉ inParts left right := by
  simp [inParts]

@[simp] theorem left_mem_inParts {left right : List Path} {p : Path} :
    .left :: p ∈ inParts left right ↔ p ∈ left := by
  simp [inParts]

@[simp] theorem right_mem_inParts {left right : List Path} {p : Path} :
    .right :: p ∈ inParts left right ↔ p ∈ right := by
  simp [inParts]

@[simp] theorem length_inParts (left right : List Path) :
    (inParts left right).length = left.length + right.length := by
  simp [inParts]

theorem map_inParts {β : Type} (left right : List Path) (f : Path → β) :
    (inParts left right).map f =
      left.map (fun p => f (.left :: p)) ++ right.map fun p => f (.right :: p) := by
  simp [inParts, Function.comp_def]

theorem pairwise_inParts {left right : List Path} (hleft : left.Pairwise (· < ·))
    (hright : right.Pairwise (· < ·)) : (inParts left right).Pairwise (· < ·) := by
  rw [inParts, List.pairwise_append, List.pairwise_map, List.pairwise_map]
  refine ⟨hleft.imp fun h => .cons h, hright.imp fun h => .cons h, ?_⟩
  rintro _ hp _ hq
  obtain ⟨p, -, rfl⟩ := List.mem_map.mp hp
  obtain ⟨q, -, rfl⟩ := List.mem_map.mp hq
  exact .rel ⟨rfl, rfl⟩

/-! ## Conjunctions and leaves -/

/-- The paths of the conjunctions, each one before those in its parts and the left part before
the right one. -/
def gates : Formula α → List Path
  | leaf _ => []
  | and l r => [] :: inParts l.gates r.gates
  | or l r => inParts l.gates r.gates

/-- The paths of the leaves from left to right. -/
def leafPaths : Formula α → List Path
  | leaf _ => [[]]
  | and l r => inParts l.leafPaths r.leafPaths
  | or l r => inParts l.leafPaths r.leafPaths

theorem mem_gates_iff {f : Formula α} {g : Path} :
    g ∈ f.gates ↔ ∃ l r, f.node? g = some (and l r) := by
  induction f generalizing g with
  | leaf a => cases g <;> simp [gates, node?]
  | and l r hl hr =>
    rcases g with _ | ⟨_ | _, g⟩
    · simp [gates, node?]
    · simp [gates, node?, hl]
    · simp [gates, node?, hr]
  | or l r hl hr =>
    rcases g with _ | ⟨_ | _, g⟩
    · simp [gates, node?]
    · simp [gates, node?, hl]
    · simp [gates, node?, hr]

theorem length_gates (f : Formula α) : f.gates.length = f.andGates := by
  induction f with
  | leaf a => rfl
  | and l r hl hr =>
    rw [gates, List.length_cons, length_inParts, hl, hr, andGates]
    omega
  | or l r hl hr => rw [gates, length_inParts, hl, hr, andGates]

/-- Conjunctions are listed in preorder. -/
theorem pairwise_gates (f : Formula α) : f.gates.Pairwise (· < ·) := by
  induction f with
  | leaf a => exact .nil
  | and l r hl hr =>
    refine .cons (fun g hg => ?_) (pairwise_inParts hl hr)
    obtain ⟨side, g, rfl⟩ := List.exists_cons_of_ne_nil (l := g) (by rintro rfl; simp at hg)
    exact .nil
  | or l r hl hr => exact pairwise_inParts hl hr

theorem nodup_gates (f : Formula α) : f.gates.Nodup := by
  refine f.pairwise_gates.imp fun {p q} h => ?_
  rintro rfl
  exact List.lt_irrefl p h

theorem map_node?_leafPaths (f : Formula α) :
    f.leafPaths.map f.node? = f.leaves.map (some ∘ leaf) := by
  induction f with
  | leaf a => rfl
  | and l r hl hr =>
    rw [leafPaths, map_inParts, leaves, List.map_append, ← hl, ← hr]
    rfl
  | or l r hl hr =>
    rw [leafPaths, map_inParts, leaves, List.map_append, ← hl, ← hr]
    rfl

theorem mem_leafPaths_iff {f : Formula α} {p : Path} :
    p ∈ f.leafPaths ↔ ∃ a, f.node? p = some (leaf a) := by
  induction f generalizing p with
  | leaf a => cases p <;> simp [leafPaths, node?]
  | and l r hl hr =>
    rcases p with _ | ⟨_ | _, p⟩
    · simp [leafPaths, node?]
    · simp [leafPaths, node?, hl]
    · simp [leafPaths, node?, hr]
  | or l r hl hr =>
    rcases p with _ | ⟨_ | _, p⟩
    · simp [leafPaths, node?]
    · simp [leafPaths, node?, hl]
    · simp [leafPaths, node?, hr]

/-- A leaf stands at the same place as its path. -/
theorem exists_leaves_getElem? {f : Formula α} {p : Path} {a : α}
    (h : f.node? p = some (leaf a)) :
    ∃ i : ℕ, f.leafPaths[i]? = some p ∧ f.leaves[i]? = some a := by
  obtain ⟨i, hi⟩ := List.mem_iff_getElem?.mp (mem_leafPaths_iff.mpr ⟨a, h⟩)
  refine ⟨i, hi, ?_⟩
  have hnodes := congrArg (fun nodes => nodes[i]?) f.map_node?_leafPaths
  simp only [List.getElem?_map, hi, Option.map_some, h] at hnodes
  obtain ⟨b, hb, hleaf⟩ := Option.map_eq_some_iff.mp hnodes.symm
  obtain rfl : b = a := by simpa using hleaf
  exact hb

/-! ## Inheriting -/

/-- The node at `p` is reached from the one at `n` without going right at a conjunction. -/
def Inherits (f : Formula α) (n p : Path) : Prop :=
  n <+: p ∧ ∀ g ∈ f.gates, n <+: g → ¬g ++ [.right] <+: p

instance (f : Formula α) (n p : Path) : Decidable (f.Inherits n p) :=
  inferInstanceAs (Decidable (_ ∧ _))

section

variable {l r : Formula α} {n p : Path}

@[simp] theorem inherits_leaf {a : α} : (leaf a).Inherits [] [] := by
  simp [Inherits, gates]

@[simp] theorem inherits_and_left : (and l r).Inherits [] (.left :: p) ↔ l.Inherits [] p := by
  simp [Inherits, gates, forall_mem_inParts]

@[simp] theorem not_inherits_and_right : ¬(and l r).Inherits [] (.right :: p) := by
  simp [Inherits, gates]

@[simp] theorem inherits_or_left : (or l r).Inherits [] (.left :: p) ↔ l.Inherits [] p := by
  simp [Inherits, gates, forall_mem_inParts]

@[simp] theorem inherits_or_right : (or l r).Inherits [] (.right :: p) ↔ r.Inherits [] p := by
  simp [Inherits, gates, forall_mem_inParts]

@[simp] theorem inherits_and_left_left :
    (and l r).Inherits (.left :: n) (.left :: p) ↔ l.Inherits n p := by
  simp [Inherits, gates, forall_mem_inParts]

@[simp] theorem inherits_and_right_right :
    (and l r).Inherits (.right :: n) (.right :: p) ↔ r.Inherits n p := by
  simp [Inherits, gates, forall_mem_inParts]

@[simp] theorem inherits_or_left_left :
    (or l r).Inherits (.left :: n) (.left :: p) ↔ l.Inherits n p := by
  simp [Inherits, gates, forall_mem_inParts]

@[simp] theorem inherits_or_right_right :
    (or l r).Inherits (.right :: n) (.right :: p) ↔ r.Inherits n p := by
  simp [Inherits, gates, forall_mem_inParts]

/-- Nothing is inherited from the other part of a gate. -/
@[simp] theorem not_inherits_of_ne {f : Formula α} {a b : Side} (h : a ≠ b) :
    ¬f.Inherits (a :: n) (b :: p) :=
  fun hinherits => h (List.cons_prefix_cons.mp hinherits.1).1

end

/-! ## Conjunctions one below the other -/

/-- No two nodes stand in disjoint parts : of any two, one is above the other. -/
def Chained (paths : List Path) : Prop :=
  ∀ p ∈ paths, ∀ q ∈ paths, p <+: q ∨ q <+: p

theorem Chained.tail {p : Path} {paths : List Path} (h : Chained (p :: paths)) : Chained paths :=
  fun q hq q' hq' => h q (List.mem_cons_of_mem p hq) q' (List.mem_cons_of_mem p hq')

/-- A chain stays in one part of a gate. -/
theorem Chained.parts {left right : List Path} (h : Chained (inParts left right)) :
    Chained left ∧ Chained right ∧ (left = [] ∨ right = []) := by
  refine ⟨fun p hp q hq => ?_, fun p hp q hq => ?_, ?_⟩
  · simpa using h _ (left_mem_inParts.mpr hp) _ (left_mem_inParts.mpr hq)
  · simpa using h _ (right_mem_inParts.mpr hp) _ (right_mem_inParts.mpr hq)
  · by_contra hboth
    obtain ⟨hleft, hright⟩ := not_or.mp hboth
    obtain ⟨p, hp⟩ := List.exists_mem_of_ne_nil _ hleft
    obtain ⟨q, hq⟩ := List.exists_mem_of_ne_nil _ hright
    simpa using h _ (left_mem_inParts.mpr hp) _ (right_mem_inParts.mpr hq)

/-- Conjunctions one below the other each have a level of their own. -/
theorem andGates_le_depth {f : Formula α} (h : Chained f.gates) : f.andGates ≤ f.depth := by
  have hmax {l r : Formula α} (hl : l.andGates ≤ l.depth) (hr : r.andGates ≤ r.depth)
      (hempty : l.gates = [] ∨ r.gates = []) :
      l.andGates + r.andGates ≤ max l.depth r.depth := by
    rw [← List.length_eq_zero_iff, ← List.length_eq_zero_iff, length_gates, length_gates] at hempty
    omega
  induction f with
  | leaf a => exact le_rfl
  | and l r hl hr =>
    obtain ⟨hleft, hright, hempty⟩ := h.tail.parts
    have := hmax (hl hleft) (hr hright) hempty
    rw [andGates, depth]
    omega
  | or l r hl hr =>
    obtain ⟨hleft, hright, hempty⟩ := Chained.parts h
    have := hmax (hl hleft) (hr hright) hempty
    rw [andGates, depth]
    omega

end AttributeEncryption.Formula
