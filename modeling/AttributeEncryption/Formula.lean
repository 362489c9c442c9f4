import AttributeEncryption.Json

/-!
# Monotone formulas

Formulas built from leaves by conjunction and disjunction. A policy is a formula over
attribute names, an access tree one over attribute ids; `Formula.resolve` leads from
the first to the second. `Formula.holds` evaluates a formula on a set of held leaves.
-/

namespace AttributeEncryption

/-- A monotone formula whose leaves are values of `α`. -/
inductive Formula (α : Type) where
  /-- One attribute. -/
  | leaf (a : α)
  /-- Both parts. -/
  | and (left right : Formula α)
  /-- One part or the other. -/
  | or (left right : Formula α)
  deriving DecidableEq

/-- A formula over attribute names. -/
abbrev Policy := Formula String

/-- A formula over attribute ids. -/
abbrev AccessTree := Formula UInt32

namespace Formula

variable {α β : Type}

/-- The leaves from left to right. -/
def leaves : Formula α → List α
  | leaf a => [a]
  | and l r => l.leaves ++ r.leaves
  | or l r => l.leaves ++ r.leaves

/-- The number of gates above the deepest leaf. -/
def depth : Formula α → Nat
  | leaf _ => 0
  | and l r => 1 + max l.depth r.depth
  | or l r => 1 + max l.depth r.depth

/-- The number of conjunctions. -/
def andGates : Formula α → Nat
  | leaf _ => 0
  | and l r => 1 + l.andGates + r.andGates
  | or l r => l.andGates + r.andGates

/-- Whether the formula is true when exactly the leaves in `held` are. -/
def holds (held : α → Bool) : Formula α → Bool
  | leaf a => held a
  | and l r => l.holds held && r.holds held
  | or l r => l.holds held || r.holds held

/-- Replaces every leaf from left to right; the first one that `f` refuses decides. -/
def traverse {ε : Type} (f : α → Except ε β) : Formula α → Except ε (Formula β)
  | leaf a => (f a).map leaf
  | and l r => do
    let l ← l.traverse f
    let r ← r.traverse f
    return and l r
  | or l r => do
    let l ← l.traverse f
    let r ← r.traverse f
    return or l r

/-- Replaces the names of a policy by the ids that `idOf` knows. -/
def resolve (idOf : String → Option UInt32) (policy : Policy) : Except Failure AccessTree :=
  policy.traverse fun name =>
    match idOf name with
    | some id => .ok id
    | none => .error (.noSuchAttribute name)

/-! ## Text -/

/-- A formula with every gate in parentheses. -/
def render (showLeaf : α → String) (conjunction disjunction : String) : Formula α → String
  | leaf a => showLeaf a
  | and l r =>
    "(" ++ l.render showLeaf conjunction disjunction ++ " " ++ conjunction ++ " " ++
      r.render showLeaf conjunction disjunction ++ ")"
  | or l r =>
    "(" ++ l.render showLeaf conjunction disjunction ++ " " ++ disjunction ++ " " ++
      r.render showLeaf conjunction disjunction ++ ")"

/-- The text of an access tree. -/
def treeText (tree : AccessTree) : String :=
  tree.render (fun id => toString id.toNat) "AND" "OR"

/-- The text of a policy: names stand in quotes as they are. -/
def policyText (policy : Policy) : String :=
  policy.render (fun name => "\"" ++ name ++ "\"") "and" "or"

/-! ## JSON form -/

/-- The JSON form: a record with one field, named for the kind of node. -/
def toJson (leafJson : α → Json) : Formula α → Json
  | leaf a => .record [("Leaf", leafJson a)]
  | and l r => .record [("And", .list [l.toJson leafJson, r.toJson leafJson])]
  | or l r => .record [("Or", .list [l.toJson leafJson, r.toJson leafJson])]

/-- Reads the JSON form. -/
def ofJson (leafOf : Json → Except Json.Refusal α) : Json → Except Json.Refusal (Formula α)
  | .record [("Leaf", a)] => (leafOf a).map leaf
  | .record [("And", .list [l, r])] => do
    let l ← ofJson leafOf l
    let r ← ofJson leafOf r
    return and l r
  | .record [("Or", .list [l, r])] => do
    let l ← ofJson leafOf l
    let r ← ofJson leafOf r
    return or l r
  | _ => .error .shape

/-- The JSON form of an access tree. -/
def treeJson (tree : AccessTree) : Json :=
  tree.toJson .ofUInt32

/-- Reads an access tree from its JSON form. -/
def treeOfJson : Json → Except Json.Refusal AccessTree :=
  ofJson Json.asUInt32

/-- The JSON form of a policy. -/
def policyJson (policy : Policy) : Json :=
  policy.toJson .text

/-- Reads a policy from its JSON form. -/
def policyOfJson : Json → Except Json.Refusal Policy :=
  ofJson Json.asText

end Formula

end AttributeEncryption
