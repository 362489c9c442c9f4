/-!
# Secrets

A secret value that no text shows and that can be overwritten with a public one.
-/

namespace AttributeEncryption

/-- A secret value. -/
structure Secret (α : Type) where
  /-- The value. -/
  value : α
  /-- The public value that it is overwritten with. -/
  neutral : α

namespace Secret

/-- The text of a secret, which does not depend on its value. -/
def text {α : Type} (_ : Secret α) : String :=
  "Ephemeral(<redacted>)"

/-- The secret overwritten with its public value. -/
def wipe {α : Type} (s : Secret α) : Secret α :=
  { s with value := s.neutral }

end Secret

end AttributeEncryption
