import AttributeEncryption.Proofs.Primality
import AttributeEncryption.Proofs.Residues

/-!
# The field order

The order of the base field is prime (`prime_fieldOrder`), which a chain of Lucas tests shows. So
the base field is one, and powers tell that some of its elements have no roots in it : -1 and 82
are no squares, and 82 is no cube. On these three facts the extension tower stands.
-/

open scoped Fin.CommRing

namespace AttributeEncryption

/-- The chain that ends with the field order. -/
def fieldOrderChain : List LucasCertificate :=
  [⟨405928799, 22, [2, 11, 3691, 4999]⟩,
    ⟨11465965001, 3, [2, 2, 2, 5, 5, 5, 5, 7, 327599]⟩,
    ⟨4562087, 5, [2, 17, 109, 1231]⟩,
    ⟨173171039, 13, [2, 73, 89, 13327]⟩,
    ⟨1263766531, 10, [2, 3, 5, 13, 911, 3557]⟩,
    ⟨35385462869, 2, [2, 2, 7, 1263766531]⟩,
    ⟨2480874801745591, 6, [2, 3, 3, 5, 19, 41, 35385462869]⟩,
    ⟨13427688667394608761327070753331941386769, 17,
      [2, 2, 2, 2, 3, 7, 11, 1853641, 4562087, 173171039, 2480874801745591]⟩,
    ⟨fieldOrder, 3, [2, 3, 3, 13, 29, 67, 229, 311, 983, 11003, 405928799, 11465965001,
      13427688667394608761327070753331941386769]⟩]

theorem prime_fieldOrder : fieldOrder.Prime := by
  have hchain : lucasChain smallPrimes fieldOrderChain = true := by decide +kernel
  exact prime_of_lucasChain prime_of_mem_smallPrimes hchain _
    (List.getLast_mem (List.cons_ne_nil _ _))

instance : Fact fieldOrder.Prime :=
  ⟨prime_fieldOrder⟩

namespace Base

theorem sq_ne_neg_one : ∀ x : Base, x ^ 2 ≠ -1 :=
  Residue.pow_ne (by decide) (by decide) (by decide +kernel)

theorem sq_ne_82 : ∀ x : Base, x ^ 2 ≠ 82 :=
  Residue.pow_ne (by decide) (by decide) (by decide +kernel)

theorem cube_ne_82 : ∀ x : Base, x ^ 3 ≠ 82 :=
  Residue.pow_ne (by decide) (by decide) (by decide +kernel)

end Base

end AttributeEncryption
