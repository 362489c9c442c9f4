import AttributeEncryption.Proofs.Elimination.Residual

/-!
# Elimination and back substitution

`Echelon available equations columns` says what a run of `eliminate` did with the
equations : which unknowns it found free, and which it solved for by which pivot, the other
equations being reduced by it (`overflowOr_eliminate`). If the equations have a solution at all,
what solves the columns solves the equations (`Echelon.residual_eq_zero`). That there is one is
asked for because of the equations that are left without unknowns.

`substitute` solves the columns, whatever they are (`overflowOr_substitute`).
-/

namespace AttributeEncryption.Elimination

/-! ## Pivots -/

theorem exchange_eq_none {first : Equation} :
    ∀ {equations : List Equation}, exchange first equations = none →
      ∀ e ∈ equations, e.leading = 0
  | [], _ => by simp
  | e :: rest, h => by
    unfold exchange at h
    split_ifs at h with he
    have hrest : exchange first rest = none := by simpa using h
    exact List.forall_mem_cons.mpr ⟨not_not.mp he, exchange_eq_none hrest⟩

theorem exchange_eq_some {first pivot : Equation} :
    ∀ {equations others : List Equation}, exchange first equations = some (pivot, others) →
      pivot.leading ≠ 0 ∧ (pivot :: others).Perm (first :: equations)
  | [], _, h => by simp [exchange] at h
  | e :: rest, others, h => by
    unfold exchange at h
    split_ifs at h with he
    · obtain ⟨rfl, rfl⟩ := Prod.mk.inj (Option.some.inj h)
      exact ⟨he, List.Perm.swap _ _ _⟩
    · obtain ⟨⟨p, os⟩, hp, heq⟩ := Option.map_eq_some_iff.mp h
      obtain ⟨rfl, rfl⟩ := Prod.mk.inj heq
      obtain ⟨hne, hperm⟩ := exchange_eq_some hp
      exact ⟨hne, (List.Perm.swap _ _ _).trans ((hperm.cons e).trans (List.Perm.swap _ _ _))⟩

/-- There is no pivot only if no equation has the next unknown. -/
theorem selectPivot_eq_none {equations : List Equation} (h : selectPivot equations = none) :
    ∀ e ∈ equations, e.leading = 0 := by
  cases equations with
  | nil => simp
  | cons e rest =>
    simp only [selectPivot] at h
    split_ifs at h with he
    exact List.forall_mem_cons.mpr ⟨not_not.mp he, exchange_eq_none h⟩

/-- A pivot has the next unknown, and together with the others it is all equations. -/
theorem selectPivot_eq_some {equations others : List Equation} {pivot : Equation}
    (h : selectPivot equations = some (pivot, others)) :
    pivot.leading ≠ 0 ∧ (pivot :: others).Perm equations := by
  cases equations with
  | nil => simp [selectPivot] at h
  | cons e rest =>
    simp only [selectPivot] at h
    split_ifs at h with he
    · obtain ⟨rfl, rfl⟩ := Prod.mk.inj (Option.some.inj h)
      exact ⟨he, List.Perm.refl _⟩
    · exact exchange_eq_some h

/-! ## Runs of the elimination -/

/-- The column may stand for an unknown whose row is available or not : it has the flag of
the row, and pivots belong to available rows. -/
def Column.Of (available : Bool) : Column → Prop
  | .free flag => flag = available
  | .pivot leading _ _ => available = true ∧ leading ≠ 0

/-- The numbers of a column are in the 64-bit range. -/
def Column.Fits : Column → Prop
  | .free _ => True
  | .pivot leading later target =>
    InWord leading ∧ (∀ c ∈ later, InWord c) ∧ InWord target

/-- How the elimination turns equations into columns. -/
inductive Echelon : List Bool → List Equation → List Column → Prop where
  /-- No unknowns are left. -/
  | nil (equations : List Equation) : Echelon [] equations []
  /-- No equation has the next unknown. -/
  | free {available : Bool} {rest : List Bool} {equations : List Equation}
      {columns : List Column} (leading : ∀ e ∈ equations, e.leading = 0)
      (later : Echelon rest (equations.map Equation.tail) columns) :
      Echelon (available :: rest) equations (.free available :: columns)
  /-- A pivot has it, and `reduced` are the reducts of the other equations. -/
  | pivot {rest : List Bool} {equations reduced : List Equation} {columns : List Column}
      {pivot : Equation} (mem : pivot ∈ equations) (leading : pivot.leading ≠ 0)
      (reduces : ∀ e ∈ equations, e = pivot ∨ ∃ e' ∈ reduced, Equation.Reduct pivot e e')
      (arises : ∀ e' ∈ reduced, ∃ e ∈ equations, Equation.Reduct pivot e e')
      (later : Echelon rest (reduced.map Equation.tail) columns) :
      Echelon (true :: rest) equations
        (.pivot pivot.leading pivot.tail.coefficients pivot.target :: columns)

/-- The elimination reports an overflow or does what `Echelon` says. -/
theorem overflowOr_eliminate :
    ∀ {available : List Bool} {equations : List Equation},
      (∀ e ∈ equations, e.Respects available) →
      OverflowOr (Echelon available equations) (eliminate available equations)
  | [], equations, _ => Echelon.nil equations
  | a :: rest, equations, h => by
    unfold eliminate
    split
    · next hnone =>
      have hleading := selectPivot_eq_none hnone
      refine (overflowOr_eliminate ?_).bind fun columns hcolumns => ?_
      · exact List.forall_mem_map.mpr fun e he => (h e he).tail
      · exact Echelon.free hleading hcolumns
    · next pivot others hsome =>
      obtain ⟨hne, hperm⟩ := selectPivot_eq_some hsome
      have hmem : pivot ∈ equations := hperm.subset (by simp)
      have hothers (e : Equation) (he : e ∈ others) : e ∈ equations := hperm.subset (by simp [he])
      have ha : a = true := (h pivot hmem).available_of_leading_ne_zero hne
      subst ha
      refine (OverflowOr.mapM fun e he => Equation.overflowOr_reduce hne ?_).bind
        fun reduced hreduced => ?_
      · rw [(h e (hothers e he)).length_eq, (h pivot hmem).length_eq]
      obtain ⟨hreduces, harises⟩ := hreduced
      refine (overflowOr_eliminate ?_).bind fun columns hcolumns => ?_
      · refine List.forall_mem_map.mpr fun e' he' => Equation.Respects.tail (a := true) ?_
        obtain ⟨e, he, hreduct⟩ := harises e' he'
        exact hreduct.respects _ (h e (hothers e he)) (h pivot hmem)
      · refine Echelon.pivot hmem hne (fun e he => ?_) (fun e' he' => ?_) hcolumns
        · rcases List.mem_cons.mp (hperm.symm.subset he) with rfl | he
          · exact Or.inl rfl
          · exact Or.inr (hreduces e he)
        · obtain ⟨e, he, hreduct⟩ := harises e' he'
          exact ⟨e, hothers e he, hreduct⟩

/-! ## Solutions of columns -/

/-- The scaled vector satisfies the equation of every pivot. -/
def Solves (scale : ℤ) : List Column → List ℤ → Prop
  | [], values => values = []
  | _ :: _, [] => False
  | .free _ :: columns, _ :: values => Solves scale columns values
  | .pivot leading later target :: columns, value :: values =>
    leading * value + sumProduct later values = scale * target ∧ Solves scale columns values

theorem Solves.map_mul {scale : ℤ} (k : ℤ) :
    ∀ {columns : List Column} {values : List ℤ}, Solves scale columns values →
      Solves (scale * k) columns (values.map (· * k))
  | [], values, h => by simp_all [Solves]
  | .free _ :: columns, [], h => h.elim
  | .pivot .. :: columns, [], h => h.elim
  | .free _ :: columns, value :: values, h => by
    have hrest : Solves scale columns values := h
    exact hrest.map_mul k
  | .pivot leading later target :: columns, value :: values, h => by
    obtain ⟨hvalue, hvalues⟩ := h
    refine ⟨?_, hvalues.map_mul k⟩
    rw [sumProduct_map_mul_right, mul_right_comm, ← hvalue]
    ring

/-- A pivot's residual is what its equation in the columns lacks. -/
theorem residual_cons_eq_zero_iff {pivot : Equation} {scale value : ℤ} {values : List ℤ} :
    pivot.residual scale (value :: values) = 0 ↔
      pivot.leading * value + sumProduct pivot.tail.coefficients values = scale * pivot.target := by
  have htarget : pivot.tail.target = pivot.target := rfl
  rw [Equation.residual_cons, Equation.residual, htarget, sub_sub, sub_eq_zero, eq_comm, add_comm]

namespace Echelon

variable {available : List Bool} {equations : List Equation} {columns : List Column}

/-- Each column stands for the unknown of its row. -/
theorem forall₂_of (h : Echelon available equations columns) :
    List.Forall₂ Column.Of available columns := by
  induction h with
  | nil => exact List.Forall₂.nil
  | free _ _ ih => exact List.Forall₂.cons rfl ih
  | pivot _ hleading _ _ _ ih => exact List.Forall₂.cons ⟨rfl, hleading⟩ ih

theorem fits (h : Echelon available equations columns) (hfits : ∀ e ∈ equations, e.Fits) :
    ∀ column ∈ columns, column.Fits := by
  have htail (e : Equation) (he : e.Fits) : e.tail.Fits :=
    ⟨he.1, fun c hc => he.2 c (List.mem_of_mem_tail hc)⟩
  induction h with
  | nil => simp
  | free _ _ ih =>
    have := ih (List.forall_mem_map.mpr fun e he => htail e (hfits e he))
    exact List.forall_mem_cons.mpr ⟨trivial, this⟩
  | @pivot rest equations reduced columns pivot hmem hne _ harises _ ih =>
    refine List.forall_mem_cons.mpr ⟨⟨?_, (htail pivot (hfits pivot hmem)).2, (hfits pivot hmem).1⟩,
      ih (List.forall_mem_map.mpr fun e' he' => htail e' ?_)⟩
    · rcases pivot with ⟨_ | ⟨c, cs⟩, t⟩
      · exact absurd rfl hne
      · exact (hfits _ hmem).2 c (by simp)
    · obtain ⟨e, he, hreduct⟩ := harises e' he'
      exact hreduct.fits (hfits e he)

/-- If the equations have a solution with a scale other than 0, what solves the columns
solves the equations. -/
theorem residual_eq_zero (h : Echelon available equations columns) {d : ℤ} {solution : List ℤ}
    (hd : d ≠ 0) (hlength : solution.length = available.length)
    (hsolution : ∀ e ∈ equations, e.residual d solution = 0)
    (hrespects : ∀ e ∈ equations, e.Respects available) {scale : ℤ} {values : List ℤ}
    (hvalues : Solves scale columns values) : ∀ e ∈ equations, e.residual scale values = 0 := by
  induction h generalizing solution values with
  | nil =>
    intro e he
    obtain rfl := List.length_eq_zero_iff.mp hlength
    have htarget : e.target = 0 := by simpa [Equation.residual, hd] using hsolution e he
    simp_all [Solves, Equation.residual]
  | @free a rest equations columns hleading _ ih =>
    cases solution with
    | nil => simp at hlength
    | cons y solution =>
      cases values with
      | nil => exact hvalues.elim
      | cons value values =>
        have htail : ∀ e ∈ equations.map Equation.tail, e.residual scale values = 0 := by
          refine ih (by simpa using hlength) (List.forall_mem_map.mpr fun e he => ?_)
            (List.forall_mem_map.mpr fun e he => (hrespects e he).tail) hvalues
          rw [← Equation.residual_cons_of_leading_eq_zero (hleading e he)]
          exact hsolution e he
        intro e he
        rw [Equation.residual_cons_of_leading_eq_zero (hleading e he)]
        exact htail _ (List.mem_map_of_mem he)
  | @pivot rest equations reduced columns pivot hmem hne hreduces harises _ ih =>
    cases solution with
    | nil => simp at hlength
    | cons y solution =>
      cases values with
      | nil => exact hvalues.elim
      | cons value values =>
        obtain ⟨hvalue, hvalues⟩ := hvalues
        have hpivot := residual_cons_eq_zero_iff.mpr hvalue
        have htail : ∀ e ∈ reduced.map Equation.tail, e.residual scale values = 0 := by
          refine ih (by simpa using hlength) (List.forall_mem_map.mpr fun e' he' => ?_)
            (List.forall_mem_map.mpr fun e' he' => ?_) hvalues
          · obtain ⟨e, he, hreduct⟩ := harises e' he'
            exact (hreduct.residual_tail_eq_zero_iff (hsolution _ hmem)).mpr (hsolution e he)
          · obtain ⟨e, he, hreduct⟩ := harises e' he'
            exact (hreduct.respects _ (hrespects e he) (hrespects _ hmem)).tail
        intro e he
        rcases hreduces e he with rfl | ⟨e', he', hreduct⟩
        · exact hpivot
        · exact (hreduct.residual_tail_eq_zero_iff hpivot).mp (htail _ (List.mem_map_of_mem he'))

end Echelon

/-! ## Back substitution -/

/-- The remainder is exact or reports an overflow. -/
theorem overflowOr_remainder :
    ∀ (a b : List ℤ) {rest : ℤ}, InWord rest →
      OverflowOr (fun n => n = rest - sumProduct a b ∧ InWord n) (remainder rest (a.zip b))
  | [], b, rest, h => ⟨by simp, h⟩
  | x :: a, [], rest, h => ⟨by simp, h⟩
  | x :: a, y :: b, rest, h => by
    refine (overflowOr_checked (x * y)).bind fun product hproduct => ?_
    refine (overflowOr_checked (rest - product)).bind fun n hn => ?_
    obtain ⟨rfl, -⟩ := hproduct
    obtain ⟨rfl, hn⟩ := hn
    refine (overflowOr_remainder a b hn).mono fun m hm => ⟨?_, hm.2⟩
    rw [hm.1, sumProduct_cons, sub_sub]

/-- Back substitution reports an overflow or solves the columns, with a scale other than 0
and 0 for the unknowns of unavailable rows. -/
theorem overflowOr_substitute {available : List Bool} {columns : List Column}
    (h : List.Forall₂ Column.Of available columns) :
    OverflowOr (fun w => Solves w.scale columns w.coefficients ∧ w.scale ≠ 0 ∧
      Vanishes available w.coefficients ∧ w.Fits)
      (substitute columns) := by
  have hzero : InWord 0 := by decide
  have hone : InWord 1 := by decide
  induction h with
  | nil => exact ⟨rfl, one_ne_zero, List.Forall₂.nil, hone, by simp⟩
  | @cons a column available columns hcolumn _ ih =>
    cases column with
    | free flag =>
      obtain rfl : flag = a := hcolumn
      refine ih.bind fun w hw => ?_
      obtain ⟨hsolves, hscale, hunavailable, hfits⟩ := hw
      refine ⟨hsolves, hscale, List.Forall₂.cons (fun ha => by simp [ha]) hunavailable, hfits.1,
        List.forall_mem_cons.mpr ⟨?_, hfits.2⟩⟩
      cases flag
      · exact hzero
      · exact hfits.1
    | pivot leading later target =>
      obtain ⟨rfl, hleading⟩ : a = true ∧ leading ≠ 0 := hcolumn
      refine ih.bind fun w hw => ?_
      obtain ⟨hsolves, hscale, hunavailable, hfits⟩ := hw
      refine (overflowOr_checked (w.scale * target)).bind fun product hproduct => ?_
      refine (overflowOr_remainder later w.coefficients hproduct.2).bind fun value hvalue => ?_
      obtain ⟨rfl, -⟩ := hproduct
      refine (overflowOr_exactQuotient value leading).bind fun q hq => ?_
      cases q with
      | some q =>
        obtain ⟨hq, hqfits⟩ := hq q rfl
        refine ⟨⟨?_, hsolves⟩, hscale, List.Forall₂.cons (by simp) hunavailable, hfits.1,
          List.forall_mem_cons.mpr ⟨hqfits, hfits.2⟩⟩
        rw [mul_comm, hq, hvalue.1, sub_add_cancel]
      | none =>
        refine (overflowOr_mapM (fun c => overflowOr_checked (c * leading)) w.coefficients).bind
          fun cs hcs => ?_
        refine (overflowOr_checked (w.scale * leading)).bind fun scale hs => ?_
        obtain ⟨rfl, hcs⟩ := hcs
        obtain ⟨rfl, hs⟩ := hs
        refine ⟨⟨?_, hsolves.map_mul leading⟩, mul_ne_zero hscale hleading,
          List.Forall₂.cons (by simp) ((vanishes_map_mul_iff hleading).mpr hunavailable), hs,
          List.forall_mem_cons.mpr ⟨hvalue.2, hcs⟩⟩
        rw [hvalue.1, sumProduct_map_mul_right]
        ring

end AttributeEncryption.Elimination
