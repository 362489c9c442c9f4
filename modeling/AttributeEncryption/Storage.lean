import AttributeEncryption.Failure

/-!
# Files

A file is absent or holds bytes. Writing creates it or replaces what it held.
-/

namespace AttributeEncryption

/-- A file. -/
structure File where
  /-- What it holds, if it is there. -/
  content : Option (List UInt8)

namespace File

/-- A file that is not there. -/
def absent : File :=
  ⟨none⟩

/-- The file after bytes were written to it. -/
def write (_ : File) (bytes : List UInt8) : File :=
  ⟨some bytes⟩

/-- What the file holds. -/
def read (f : File) : Except Failure (List UInt8) :=
  match f.content with
  | some bytes => .ok bytes
  | none => .error (.stream .notFound)

end File

end AttributeEncryption
