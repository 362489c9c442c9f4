import AttributeEncryption.Proofs.Scheme.Policies
import AttributeEncryption.Proofs.Scheme.Recovery

/-!
# Pooled keys

Two keys may be pooled : `K` and `L` come from the first one and each component from either
(`PrivateKey.Pooled`). The check accepts such a key, but the points of the attributes from the
second key do not cancel. What the key recovers has one factor for each of its rows from
the second key, a power of `e(h, g₂)` (`PublicParameters.foreignFactors`,
`Established.recover_eq_mul_prod`). So the multiplier is recovered only if the scalars that
were drawn for the rows lie on a hyperplane (`recover_of_pooled`).
-/

open scoped Fin.CommRing

namespace AttributeEncryption

variable {S : Suite} {X₁ X₂ X : Type} [AddCommGroup X₁] [Module Scalar X₁] [AddCommGroup X₂]
  [Module Scalar X₂] [AddCommGroup X] [Module Scalar X] {M : S.Model X₁ X₂ X}
  {x : X₁} {y : X₂} {α a t t₁ t₂ : Scalar} {τ : UInt32 → Scalar} {pp : PublicParameters S}
  {msk : MasterKey S} {sk sk₁ sk₂ : PrivateKey S} {second : UInt32 → Bool}

/-! ## Pooled keys -/

/-- The key has `K` and `L` of the first key, and its components are those of the first or the
second one. -/
structure PrivateKey.Pooled (sk sk₁ sk₂ : PrivateKey S) (second : UInt32 → Bool) : Prop where
  k : sk.k = sk₁.k
  l : sk.l = sk₁.l
  component : ∀ {id : UInt32} {c : S.G1}, sk.components.get? id = some c →
    (if second id then sk₂ else sk₁).components.get? id = some c

/-- The components of a pooled key are for the scalars of the keys they come from. -/
theorem PrivateKey.Pooled.assembled (h : sk.Pooled sk₁ sk₂ second)
    (hsk₁ : Issued M x y α a t₁ pp sk₁) (hsk₂ : Issued M x y α a t₂ pp sk₂) :
    Assembled M x y α a t₁ (fun id => if second id then t₂ else t₁) pp sk where
  k := h.k ▸ hsk₁.k
  l := h.l ▸ hsk₁.l
  component {id c} hc := by
    have hcomponent := h.component hc
    split_ifs at hcomponent ⊢
    · exact hsk₂.component hcomponent
    · exact hsk₁.component hcomponent

/-! ## Factors that do not cancel -/

/-- The product of some values. -/
def ValueGroup.prod {V : Type} (g : ValueGroup V) (values : List V) : V :=
  values.foldr g.mul g.one

/-- If the values of some items of a list stand for the inverses of their terms, and the terms of
the others are 0, the product of those values stands for the inverse of all terms together. -/
theorem ValueGroup.Model.prod_filter_map {V A : Type} {g : ValueGroup V} (M : g.Model X)
    {p : A → Bool} {f : A → V} {items : List A} {terms : List X}
    (h : List.Forall₂ (fun item z => if p item then f item = M.value (-z) else z = 0)
      items terms) :
    g.prod ((items.filter p).map f) = M.value (-terms.sum) := by
  induction h with
  | nil => exact M.one.trans (congrArg M.value neg_zero.symm)
  | @cons item z items terms hitem _ ih =>
    rw [List.sum_cons]
    split_ifs at hitem with hp
    · rw [List.filter_cons_of_pos hp, List.map_cons, ValueGroup.prod, List.foldr_cons]
      change g.mul _ (g.prod ((items.filter p).map f)) = _
      rw [ih, hitem, M.mul, neg_add]
    · rw [List.filter_cons_of_neg hp, ih, hitem, zero_add]

namespace PublicParameters

/-- The power of `e(h, g₂)` for the attribute `h` of a row, given with the weight and the scalar
of the row. -/
def foreignFactor (pp : PublicParameters S) (t₁ t₂ : Scalar) (row : UInt32 × ℤ × Scalar) : S.Gt :=
  match pp.registry.attribute? row.1 with
  | some b => S.gt.pow (S.pair b.point pp.g2) (row.2.2 * (t₁ - t₂) * (row.2.1 : Scalar))
  | none => S.gt.one

/-- The factors of the rows that the key holds by a component of the second key. -/
def foreignFactors (pp : PublicParameters S) (sk : PrivateKey S) (second : UInt32 → Bool)
    (t₁ t₂ : Scalar) (matrix : ShareMatrix) (w : Weights) (scalars : List Scalar) : List S.Gt :=
  ((matrix.labels.zip (w.coefficients.zip scalars)).filter
    fun row => sk.holds row.1 && second row.1).map (pp.foreignFactor t₁ t₂)

end PublicParameters

section Recover

variable {matrix : ShareMatrix} {attributes : List (UInt32 × Attribute S.G1)} {secret : Scalar}
  {rest scalars : List Scalar} {elements : List X₁} {w : Weights}

/-- With weights of scale 1 that reach the target, recovery gives the multiplier but for what
does not cancel. -/
theorem Established.recover_eq_sub (h : Established M x y α a pp msk)
    (hsk : Assembled M x y α a t τ pp sk) (hattributes : pp.Resolves matrix.labels attributes)
    (helements : List.Forall₂ (fun b z => M.first.stands b.2.point z) attributes elements)
    (hvector : (secret :: rest).length = matrix.columns)
    (hscalars : scalars.length = matrix.rowCount)
    (hw : matrix.weights (matrix.unavailable sk.holds) = .ok w) (hscale : w.scale = 1)
    (hreachable : Reachable matrix.rows (matrix.unavailable sk.holds)) :
    pp.recover (pp.headerWith matrix attributes secret rest scalars) sk =
      .ok (M.values.value ((α * secret) • M.e x y - PublicParameters.weightedTerms 1 w.coefficients
        (PublicParameters.foreignTerms M y (fun id => τ id - t) matrix.labels elements
          scalars))) := by
  have hreconstruction := (overflowOr_reconstructionWeights (matrix.unavailable sk.holds)
    matrix.width_pos matrix.rectangular).of_eq_ok hw
  obtain ⟨scaleInverse, hinverse, hone⟩ := hreconstruction.exists_scale_inverse
  rw [hscale, Int.cast_one, mul_one] at hone
  have hsum := hreconstruction.sum_eq hreachable
  have hshares := @sum_weighted_dot_target matrix.rows w.coefficients w.scale secret rest
    (fun row hrow => (matrix.rectangular row hrow).trans hvector.symm)
    (fun j hj => hsum j (hj.trans_eq hvector))
  rw [PublicParameters.recover_eq_of_assembled h hsk hattributes helements hscalars hw hinverse,
    hone, hshares, hscale, Int.cast_one, one_mul, one_mul, sub_self, mul_zero, add_zero]

/-- What does not cancel are the factors of the rows from the second key. -/
theorem Established.prod_foreignFactors (h : Established M x y α a pp msk)
    (hattributes : pp.Resolves matrix.labels attributes)
    (helements : List.Forall₂ (fun b z => M.first.stands b.2.point z) attributes elements)
    (hscalars : scalars.length = matrix.rowCount)
    (hw : Reconstruction matrix.rows (matrix.unavailable sk.holds) w) :
    S.gt.prod (pp.foreignFactors sk second t₁ t₂ matrix w scalars) =
      M.values.value (-PublicParameters.weightedTerms 1 w.coefficients
        (PublicParameters.foreignTerms M y (fun id => (if second id then t₂ else t₁) - t₁)
          matrix.labels elements scalars)) := by
  have hrows := matrix.length_rows
  have hlabels := matrix.labels_length
  have hlength : attributes.length = matrix.rowCount := hattributes.length_eq.symm.trans hlabels
  have hlength' : elements.length = matrix.rowCount := helements.length_eq.symm.trans hlength
  have hcoefficients := hw.length_eq
  refine M.values.prod_filter_map (List.forall₂_iff_get.mpr
    ⟨by simp [PublicParameters.foreignTerms, hcoefficients, hlabels, hrows, hlength', hscalars],
      fun i hi hi' => ?_⟩)
  have hi₀ : i < matrix.rowCount := by
    simp only [List.length_zip] at hi
    omega
  have hi₁ : i < matrix.labels.length := by omega
  have hi₂ : i < attributes.length := by omega
  have hi₃ : i < elements.length := by omega
  have hattribute := hattributes.attribute?_getElem hi₁ hi₂
  have helement : M.first.stands attributes[i].2.point elements[i] := helements.get hi₂ hi₃
  simp only [PublicParameters.foreignTerms, List.get_eq_getElem, List.getElem_zip,
    List.getElem_zipWith]
  cases hsecond : second matrix.labels[i] with
  | false => simp
  | true =>
    cases hheld : sk.holds matrix.labels[i] with
    | false =>
      have hzero := hw.zero_of_mem i (ShareMatrix.mem_unavailable_iff.mpr
        ⟨_, List.getElem?_eq_getElem hi₁, hheld⟩)
      rw [Weights.coefficient, List.getD_eq_getElem _ _ (by omega)] at hzero
      simp [hzero]
    | true =>
      simp only [Bool.and_self, if_true]
      unfold PublicParameters.foreignFactor
      rw [hattribute]
      simp only
      rw [M.pair helement h.g2, M.values.pow_value]
      congr 1
      module

/-- A pooled key that satisfies the policy recovers the multiplier times the factors of its rows
from the second key. -/
theorem Established.recover_eq_mul_prod (h : Established M x y α a pp msk)
    (hsk₁ : Issued M x y α a t₁ pp sk₁) (hsk₂ : Issued M x y α a t₂ pp sk₂)
    (hpool : sk.Pooled sk₁ sk₂ second) (hattributes : pp.Resolves matrix.labels attributes)
    (hvector : (secret :: rest).length = matrix.columns)
    (hscalars : scalars.length = matrix.rowCount)
    (hw : matrix.weights (matrix.unavailable sk.holds) = .ok w) (hscale : w.scale = 1)
    (hreachable : Reachable matrix.rows (matrix.unavailable sk.holds)) :
    pp.recover (pp.headerWith matrix attributes secret rest scalars) sk =
      .ok (S.gt.mul (S.gt.pow pp.blinding secret)
        (S.gt.prod (pp.foreignFactors sk second t₁ t₂ matrix w scalars))) := by
  have hreconstruction := (overflowOr_reconstructionWeights (matrix.unavailable sk.holds)
    matrix.width_pos matrix.rectangular).of_eq_ok hw
  obtain ⟨elements, helements⟩ := hattributes.exists_elements h
  rw [h.recover_eq_sub (hpool.assembled hsk₁ hsk₂) hattributes helements hvector hscalars hw hscale
      hreachable, h.prod_foreignFactors hattributes helements hscalars hreconstruction,
    h.blinding_pow, h.power_eq, M.values.mul, sub_eq_add_neg]

end Recover

/-! ## The hyperplane of the row scalars -/

/-- For each row what its scalar is multiplied by in the exponent if the attributes are the
multiples `κ` of one point. -/
def foreignExponents (weights : List ℤ) (labels : List UInt32) (excess κ : UInt32 → Scalar) :
    List Scalar :=
  List.zipWith (fun (w : ℤ) id => (w : Scalar) * excess id * κ id) weights labels

theorem weightedTerms_foreignTerms (M : S.Model X₁ X₂ X) (γ : X₁) (y : X₂)
    (excess κ : UInt32 → Scalar) :
    ∀ {weights : List ℤ} {labels : List UInt32} {scalars : List Scalar},
      PublicParameters.weightedTerms 1 weights
          (PublicParameters.foreignTerms M y excess labels (labels.map fun id => κ id • γ)
            scalars) =
        (List.zipWith (· * ·) (foreignExponents weights labels excess κ) scalars).sum • M.e γ y
  | [], labels, scalars => by simp [foreignExponents]
  | w :: weights, [], scalars => by simp [foreignExponents, PublicParameters.foreignTerms]
  | w :: weights, id :: labels, [] => by simp [PublicParameters.foreignTerms]
  | w :: weights, id :: labels, r :: scalars => by
    have ih := @weightedTerms_foreignTerms M γ y excess κ weights labels scalars
    simp only [foreignExponents, PublicParameters.foreignTerms, List.map_cons, List.zip_cons_cons,
      List.zipWith_cons_cons, PublicParameters.weightedTerms_cons, List.sum_cons, map_smul,
      LinearMap.smul_apply] at ih ⊢
    rw [ih]
    module

/-- If the order is full and `g₁` is a multiple of a point, the powers of its pairing value are
told apart too. -/
theorem Established.value_smul_injective {γ : X₁} {k : Scalar}
    (h : Established M (k • γ) y α a pp msk) (hfull : pp.FullOrder) :
    Function.Injective fun c : Scalar => M.values.value (c • M.e γ y) := by
  intro c d hcd
  refine h.power_injective hfull ?_
  have hpower (c : Scalar) : pp.power c = S.gt.pow (M.values.value (c • M.e γ y)) k := by
    rw [h.power_eq, M.values.pow_value, map_smul, LinearMap.smul_apply, smul_comm]
  rw [hpower, hpower]
  exact congrArg (S.gt.pow · k) hcd

/-- If the attributes are multiples of one point, a key that satisfies the policy recovers the
multiplier exactly if the row scalars lie on the hyperplane of the foreign exponents. -/
theorem Established.recover_eq_iff_sum_eq_zero {γ : X₁} {k : Scalar} {κ : UInt32 → Scalar}
    (h : Established M (k • γ) y α a pp msk) (hfull : pp.FullOrder)
    (hκ : ∀ id b, pp.registry.attribute? id = some b → M.first.stands b.point (κ id • γ))
    (hsk : Assembled M (k • γ) y α a t τ pp sk) {matrix : ShareMatrix}
    {attributes : List (UInt32 × Attribute S.G1)}
    (hattributes : pp.Resolves matrix.labels attributes)
    {secret : Scalar} {rest scalars : List Scalar}
    (hvector : (secret :: rest).length = matrix.columns)
    (hscalars : scalars.length = matrix.rowCount) {w : Weights}
    (hw : matrix.weights (matrix.unavailable sk.holds) = .ok w) (hscale : w.scale = 1)
    (hreachable : Reachable matrix.rows (matrix.unavailable sk.holds)) :
    pp.recover (pp.headerWith matrix attributes secret rest scalars) sk =
        .ok (S.gt.pow pp.blinding secret) ↔
      (List.zipWith (· * ·)
        (foreignExponents w.coefficients matrix.labels (fun id => τ id - t) κ)
        scalars).sum = 0 := by
  have helements : List.Forall₂ (fun b z => M.first.stands b.2.point z) attributes
      (matrix.labels.map fun id => κ id • γ) :=
    List.forall₂_map_right_iff.mpr (hattributes.imp fun id b hb => hκ id b.2 hb).flip
  have hsecret : (α * secret) • M.e (k • γ) y = (α * secret * k) • M.e γ y := by
    rw [map_smul, LinearMap.smul_apply, smul_smul]
  rw [h.recover_eq_sub hsk hattributes helements hvector hscalars hw hscale hreachable,
    weightedTerms_foreignTerms, h.blinding_pow, h.power_eq, hsecret, ← sub_smul, Except.ok.injEq,
    (h.value_smul_injective hfull).eq_iff, sub_eq_self]

/-- A row from the second key has an exponent other than 0 if its weight is small and not 0 and
its attribute is not neutral. -/
theorem exists_foreignExponent_ne_zero {weights : List ℤ} {labels : List UInt32}
    {excess κ : UInt32 → Scalar} {i : ℕ} {id : UInt32} (hlength : weights.length = labels.length)
    (hid : labels[i]? = some id) (hweight : weights.getD i 0 ≠ 0)
    (hsmall : ∀ c ∈ weights, |c| < groupOrder) (hexcess : excess id ≠ 0) (hκ : κ id ≠ 0) :
    ∃ c ∈ foreignExponents weights labels excess κ, c ≠ 0 := by
  obtain ⟨hi, rfl⟩ := List.getElem?_eq_some_iff.mp hid
  have hi' : i < weights.length := hlength ▸ hi
  rw [List.getD_eq_getElem _ _ hi'] at hweight
  have hcast : (weights[i] : Scalar) ≠ 0 := by
    rwa [ne_eq, Scalar.intCast_eq_zero_iff (hsmall _ (List.getElem_mem hi'))]
  have hlt : i < (foreignExponents weights labels excess κ).length := by
    rw [foreignExponents, List.length_zipWith]
    omega
  refine ⟨_, List.getElem_mem hlt, ?_⟩
  simp only [foreignExponents, List.getElem_zipWith]
  exact mul_ne_zero (mul_ne_zero hcast hexcess) hκ

/-- The check accepts every key that is pooled from two issued keys. For every policy over
distinct registered names that its attributes satisfy, and whatever is drawn, it recovers the
multiplier times the product of `e(h, g₂) ^ (r · (t₁ - t₂) · w)` over its rows from the second
key. If the scalars of the keys differ, `e(g₁, g₂)` has full order, and one of these rows has a
weight other than 0 and an attribute that is not neutral, the key recovers the multiplier
exactly for the row scalars on a hyperplane. -/
theorem recover_of_pooled (M : S.Model X₁ X₂ X) {bits : UInt32} {ρ₀ : Randomness}
    {pp₀ : PublicParameters S} (hsetup : (setup S bits).result ρ₀ = .ok (pp₀, msk))
    (hpp : Registrations pp₀ pp) {policy : Policy} (hnodup : policy.leaves.Nodup)
    (hleaves : ∀ name ∈ policy.leaves, pp.registry.Has name) (hsk₁ : pp.Issues msk t₁ sk₁)
    (hsk₂ : pp.Issues msk t₂ sk₂) (hpool : sk.Pooled sk₁ sk₂ second) :
    pp.checkPrivateKey sk = .ok () ∧ (pp.satisfies sk policy = true →
      ∃ matrix w, pp.compile policy = .ok matrix ∧
        matrix.weights (matrix.unavailable sk.holds) = .ok w ∧
        (∀ ρ, ∃ header multiplier, (pp.encapsulate matrix).result ρ = .ok (header, multiplier) ∧
          pp.recover header sk = .ok (S.gt.mul multiplier (S.gt.prod
            (pp.foreignFactors sk second t₁ t₂ matrix w
              ((PublicParameters.rowScalars matrix).value ρ))))) ∧
        (t₁ ≠ t₂ → pp.FullOrder →
          (∃ i id b, matrix.label? i = some id ∧ sk.holds id = true ∧ second id = true ∧
            w.coefficient i ≠ 0 ∧ pp.registry.attribute? id = some b ∧
            ¬ M.first.stands b.point 0) →
          ∃ coefficients : List Scalar, coefficients.length = matrix.rowCount ∧
            (∃ c ∈ coefficients, c ≠ 0) ∧
            ∀ ρ header multiplier, (pp.encapsulate matrix).result ρ = .ok (header, multiplier) →
              (pp.recover header sk = .ok multiplier ↔
                (List.zipWith (· * ·) coefficients
                  ((PublicParameters.rowScalars matrix).value ρ)).sum = 0))) := by
  obtain ⟨γ, hγ⟩ := M.first.generator
  obtain ⟨k, y, hestablished⟩ := exists_established M hsetup hγ
  have h := hestablished.registrations hpp
  have hissued₁ := h.issued hsk₁
  have hissued₂ := h.issued hsk₂
  have hassembled := hpool.assembled hissued₁ hissued₂
  refine ⟨h.checkPrivateKey_eq_ok hassembled, fun hsatisfies => ?_⟩
  obtain ⟨matrix, hcompile, hmatrix⟩ := PublicParameters.exists_compile hleaves hnodup
  obtain ⟨attributes, hlookUp, hattributes⟩ :=
    PublicParameters.exists_lookUpIds_of_compiled hleaves hmatrix
  rw [PublicParameters.satisfies_eq hleaves] at hsatisfies
  have hreachable := (hmatrix.reachable_iff sk.holds).mpr hsatisfies
  obtain ⟨w, hw, hscale, hle, hreconstruction⟩ := hmatrix.exists_reconstruction sk.holds
  have hencapsulate (ρ : Randomness) := PublicParameters.gives_encapsulate hlookUp
    (hattributes.length_eq.symm.trans matrix.labels_length) ρ
  refine ⟨matrix, w, hcompile, hw, fun ρ => ?_, fun hne hfull hforeign => ?_⟩
  · obtain ⟨secret, rest, ρ', -, hvector, hscalars, hgives⟩ := hencapsulate ρ
    exact ⟨_, _, hgives.result_eq, h.recover_eq_mul_prod hissued₁ hissued₂ hpool hattributes hvector
      hscalars hw hscale hreachable⟩
  · obtain ⟨κ, hκ⟩ := hpp.exists_stands_smul hsetup hγ
    obtain ⟨i, id, b, hid, -, hsecond, hweight, hb, hneutral⟩ := hforeign
    have hlength : w.coefficients.length = matrix.labels.length :=
      hreconstruction.length_eq.trans matrix.labels_length.symm
    have hsmall : ∀ c ∈ w.coefficients, |c| < groupOrder := by
      intro c hc
      have hbound : ((policy.map pp.idOf).leaves.length : ℤ) ≤ 2 ^ 32 := by
        exact_mod_cast hmatrix.leaves_length_le
      exact ((hle c hc).trans hbound).trans_lt (by decide)
    have hexcess : (if second id then t₂ else t₁) - t₁ ≠ 0 := by
      rw [if_pos hsecond]
      exact sub_ne_zero.mpr hne.symm
    have hκid : κ id ≠ 0 := by
      intro hzero
      have hstands := hκ id b hb
      rw [hzero, zero_smul] at hstands
      exact hneutral hstands
    refine ⟨foreignExponents w.coefficients matrix.labels
      (fun id => (if second id then t₂ else t₁) - t₁) κ, ?_,
      exists_foreignExponent_ne_zero hlength hid hweight hsmall hexcess hκid,
      fun ρ header multiplier hρ => ?_⟩
    · rw [foreignExponents, List.length_zipWith, hlength, Nat.min_self, matrix.labels_length,
        matrix.length_rows]
    · obtain ⟨secret, rest, ρ', -, hvector, hscalars, hgives⟩ := hencapsulate ρ
      obtain ⟨rfl, rfl⟩ := Prod.mk.inj (hgives.eq_of_result_eq hρ)
      exact h.recover_eq_iff_sum_eq_zero hfull hκ hassembled hattributes hvector hscalars hw hscale
        hreachable

/-- A key for `a` and a key for `b` are pooled. The check accepts the result, and it recovers the
multiplier of `a ∧ b` exactly on a hyperplane of the row scalars. -/
theorem pooled_key_on_hyperplane :
    ∃ pp₀ msk pp sk₁ sk₂ sk matrix header multiplier, ∃ coefficients : List Scalar,
      (setup exponents 128).result (.ofWords #[1]) = .ok (pp₀, msk) ∧ Registrations pp₀ pp ∧
      (pp.issueForNames msk ["a"]).result (.ofWords #[1]) = .ok sk₁ ∧
      (pp.issueForNames msk ["b"]).result (.ofWords #[2]) = .ok sk₂ ∧
      sk.Pooled sk₁ sk₂ (· == 1) ∧ pp.checkPrivateKey sk = .ok () ∧
      pp.compile (.and (.leaf "a") (.leaf "b")) = .ok matrix ∧
      (pp.encapsulate matrix).result (.ofSeed 1) = .ok (header, multiplier) ∧
      coefficients.length = matrix.rowCount ∧ (∃ c ∈ coefficients, c ≠ 0) ∧
      (pp.recover header sk = .ok multiplier ↔ (List.zipWith (· * ·) coefficients
        ((PublicParameters.rowScalars matrix).value (.ofSeed 1))).sum = 0) := by
  obtain ⟨pp₀, msk, pp, hsetup, hpp, hfull, hentries⟩ := exists_exponents_pair
  obtain ⟨k, y, hestablished⟩ := exists_established exponentsModel hsetup rfl
  have h := hestablished.registrations hpp
  have hneutral : exponentGroup.random.value (.ofWords #[1]) ≠ 0 := by decide +kernel
  generalize exponentGroup.random.value (.ofWords #[1]) = point at hentries hneutral
  have hfirst : pp.lookUpNames ["a"] = .ok [(0, ⟨"a", point⟩)] := by
    unfold PublicParameters.lookUpNames Registry.named?
    rw [hentries]
    rfl
  have hsecond : pp.lookUpNames ["b"] = .ok [(1, ⟨"b", point⟩)] := by
    unfold PublicParameters.lookUpNames Registry.named?
    rw [hentries]
    rfl
  obtain ⟨t₁, hsk₁⟩ := h.exists_issueForNames hfirst (List.cons_ne_nil _ _) (.ofWords #[1])
  obtain ⟨t₂, hsk₂⟩ := h.exists_issueForNames hsecond (List.cons_ne_nil _ _) (.ofWords #[2])
  let sk : PrivateKey exponents :=
    { pp.issueWith msk [(0, ⟨"a", point⟩)] t₁ with
      components := ⟨[(0, exponents.g1.multiple point t₁), (1, exponents.g1.multiple point t₂)],
        by simp⟩ }
  have hpool : sk.Pooled (pp.issueWith msk [(0, ⟨"a", point⟩)] t₁)
      (pp.issueWith msk [(1, ⟨"b", point⟩)] t₂) (· == 1) := by
    refine ⟨rfl, rfl, fun hc => ?_⟩
    rw [IdMap.get?_eq_some_iff] at hc
    rcases List.mem_cons.mp hc with heq | hc
    · obtain ⟨rfl, rfl⟩ := Prod.mk.inj heq
      rfl
    · obtain ⟨rfl, rfl⟩ := Prod.mk.inj (List.mem_singleton.mp hc)
      rfl
  have hleaves : ∀ name ∈ (Formula.and (.leaf "a") (.leaf "b")).leaves, pp.registry.Has name := by
    intro name hname
    rw [Registry.has_iff, hentries]
    exact hname
  have hsatisfies : pp.satisfies sk (.and (.leaf "a") (.leaf "b")) = true := by
    unfold PublicParameters.satisfies Registry.idOf?
    rw [hentries]
    rfl
  obtain ⟨hcheck, hrecover⟩ := recover_of_pooled exponentsModel hsetup hpp (by decide) hleaves
    (.forNames (.refl pp) hsk₁) (.forNames (.refl pp) hsk₂) hpool
  obtain ⟨matrix, w, hcompile, hw, hheader, hhyperplane⟩ := hrecover hsatisfies
  obtain ⟨hrows, hlabels⟩ : matrix.rows = [[1, 1], [0, -1]] ∧ matrix.labels = [0, 1] := by
    have hresolve : Formula.resolve pp.registry.idOf? (.and (.leaf "a") (.leaf "b")) =
        .ok (.and (.leaf 0) (.leaf 1)) := by
      unfold Registry.idOf?
      rw [hentries]
      rfl
    unfold PublicParameters.compile at hcompile
    rw [hresolve] at hcompile
    cases hcompile
    exact ⟨rfl, rfl⟩
  have hweights : w = ⟨[1, 1], 1⟩ := by
    have hunavailable : matrix.unavailable sk.holds = [] := by
      unfold ShareMatrix.unavailable
      rw [hlabels]
      rfl
    unfold ShareMatrix.weights at hw
    rw [hunavailable, hrows] at hw
    exact (Except.ok.inj hw).symm
  have hforeign : ∃ i id b, matrix.label? i = some id ∧ sk.holds id = true ∧ (id == 1) = true ∧
      w.coefficient i ≠ 0 ∧ pp.registry.attribute? id = some b ∧
      ¬ exponentsModel.first.stands b.point 0 := by
    refine ⟨1, 1, ⟨"b", point⟩, ?_, rfl, rfl, ?_, ?_, hneutral⟩
    · unfold ShareMatrix.label?
      rw [hlabels]
      rfl
    · rw [hweights]
      decide
    · rw [Registry.attribute?_eq_some_iff, hentries]
      simp
  obtain ⟨coefficients, hlength, hne, hiff⟩ := hhyperplane (by decide +kernel) hfull hforeign
  obtain ⟨header, multiplier, hencapsulate, -⟩ := hheader (.ofSeed 1)
  exact ⟨pp₀, msk, pp, _, _, sk, matrix, header, multiplier, coefficients, hsetup, hpp, hsk₁, hsk₂,
    hpool, hcheck, hcompile, hencapsulate, hlength, hne, hiff _ _ _ hencapsulate⟩

end AttributeEncryption
