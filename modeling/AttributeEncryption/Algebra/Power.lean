/-!
# Powers

Powers by repeated squaring, for any operation: a power in a multiplicative group, a
multiple in an additive one.
-/

namespace AttributeEncryption

variable {α : Type} (op : α → α → α) (unit x : α)

/-- The power `x ^ n` for an exponent of at most `digits` binary digits. -/
def powerDigits : Nat → Nat → α
  | 0, _ => unit
  | digits + 1, n =>
    let root := powerDigits digits (n / 2)
    let square := op root root
    if n % 2 = 0 then square else op square x

/-- The power `x ^ n` with respect to an operation and its unit. -/
def power (n : Nat) : α :=
  powerDigits op unit x (n.log2 + 1) n

end AttributeEncryption
