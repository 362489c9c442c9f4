import AttributeEncryption.Failure

/-!
# JSON values

The values that configurations and stored policies are made of, and the readers of
their parts. A reader refuses a value of another shape; a value of the right shape
whose content the library refuses is reported with the library's reason.
-/

namespace AttributeEncryption

/-- A JSON value. Numbers written with a fraction or an exponent keep their text, since
nothing in this library is read from one. -/
inductive Json where
  /-- The null value. -/
  | null
  /-- A truth value. -/
  | bool (value : Bool)
  /-- A number written as an integer. -/
  | integer (value : Int)
  /-- A number written in any other way. -/
  | fraction (text : String)
  /-- A text. -/
  | text (value : String)
  /-- An array. -/
  | list (items : List Json)
  /-- An object, its fields in order, no name twice. -/
  | record (fields : List (String × Json))

namespace Json

/-- Why a value is refused. -/
inductive Refusal where
  /-- It has another shape. -/
  | shape
  /-- It has the right shape, but its content is refused. -/
  | content (cause : Failure)
  deriving DecidableEq

/-- The integer between `low` and `high`, both included, that a value is. -/
def integerBetween (low high : Int) : Json → Except Refusal Int
  | integer n => if low ≤ n ∧ n ≤ high then .ok n else .error .shape
  | _ => .error .shape

/-- The 32-bit unsigned integer that a value is. -/
def asUInt32 (j : Json) : Except Refusal UInt32 :=
  (j.integerBetween 0 0xFFFFFFFF).map fun n => .ofNat n.toNat

/-- The 32-bit signed integer that a value is. -/
def asInt32 (j : Json) : Except Refusal Int32 :=
  (j.integerBetween (-0x80000000) 0x7FFFFFFF).map .ofInt

/-- The text that a value is. -/
def asText : Json → Except Refusal String
  | text s => .ok s
  | _ => .error .shape

/-- The items of an array, each read by `read`. -/
def asList {α : Type} (read : Json → Except Refusal α) : Json → Except Refusal (List α)
  | list items => items.mapM read
  | _ => .error .shape

/-- The fields of a record that has the given names, in their order; a field that is
missing is `none`. A record may also be written as an array of its fields in order,
which then may not be longer than the names are. -/
def asFields (names : List String) : Json → Except Refusal (List (Option Json))
  | record fields => .ok (names.map fun name => (fields.find? (·.1 = name)).map (·.2))
  | list items =>
    if items.length ≤ names.length then .ok ((List.range names.length).map (items[·]?))
    else .error .shape
  | _ => .error .shape

/-- A field that has to be there. -/
def required {α : Type} (read : Json → Except Refusal α) : Option Json → Except Refusal α
  | some j => read j
  | none => .error .shape

/-- A field that stands for `default` when it is missing. -/
def optional {α : Type} (default : α) (read : Json → Except Refusal α) :
    Option Json → Except Refusal α
  | some j => read j
  | none => .ok default

/-- The value of a number. -/
def ofUInt32 (n : UInt32) : Json :=
  integer n.toNat

/-- The value of a signed number. -/
def ofInt32 (n : Int32) : Json :=
  integer n.toInt

end Json

end AttributeEncryption
