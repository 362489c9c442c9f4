import AttributeEncryption.Sharing.Matrix
import AttributeEncryption.Sharing.Weights

/-!
# Elimination

The weights of the rows of a matrix that reach the target are the solutions of a linear
system with one equation per column and one unknown per row, the unknowns of unavailable
rows being 0. `reconstructionWeights` solves it over the integers: forward elimination
treats the unknowns from left to right and records for each one whether it is free or a
pivot; back substitution assigns values from right to left. Where a division is not exact
the other side of it is multiplied instead, so a common scale is carried along, and in
the end the greatest common divisor of all numbers is taken out.

All arithmetic is exact and checked: a number outside of the 64-bit range is a failure,
never a wrong result. If the target cannot be reached, the weights solve the equations
that have pivots, and `Weights.reachesTarget` tells the difference.
-/

namespace AttributeEncryption.Elimination

/-! ## Checked arithmetic -/

/-- An integer in the 64-bit range. -/
def checked (n : Int) : Except Failure Int :=
  if leastWord ≤ n ∧ n ≤ greatestWord then .ok n else .error .coefficientOverflow

/-- The quotient by a divisor other than 0 if it is exact, and nothing otherwise. -/
def exactQuotient (n divisor : Int) : Except Failure (Option Int) :=
  if n.tmod divisor = 0 then (checked (n.tdiv divisor)).map some else .ok none

/-! ## Forward elimination -/

/-- A linear equation in the unknowns that are not treated yet. -/
structure Equation where
  /-- The coefficients of the unknowns, the next one first. -/
  coefficients : List Int
  /-- The right-hand side. -/
  target : Int
  deriving DecidableEq

namespace Equation

/-- The coefficient of the next unknown. -/
def leading (e : Equation) : Int :=
  e.coefficients.headD 0

/-- The equation without its next unknown. -/
def tail (e : Equation) : Equation :=
  { e with coefficients := e.coefficients.tail }

/-- The equation multiplied by a number. -/
def scale (factor : Int) (e : Equation) : Except Failure Equation := do
  let coefficients ← e.coefficients.mapM fun c => checked (c * factor)
  let target ← checked (e.target * factor)
  return { coefficients, target }

/-- `a - factor * b`, both the product and the difference checked. -/
def minusMultiple (factor a b : Int) : Except Failure Int := do
  let product ← checked (factor * b)
  checked (a - product)

/-- The equation less a multiple of another one. -/
def subtract (factor : Int) (pivot e : Equation) : Except Failure Equation := do
  let coefficients ← (e.coefficients.zip pivot.coefficients).mapM fun (a, b) =>
    minusMultiple factor a b
  let target ← minusMultiple factor e.target pivot.target
  return { coefficients, target }

/-- Frees the equation of its next unknown with the help of one that has it. If the
leading coefficient is not a multiple of the pivot's, the equation is multiplied by the
latter first. -/
def reduce (pivot e : Equation) : Except Failure Equation := do
  if e.leading = 0 then return e
  match ← exactQuotient e.leading pivot.leading with
  | some quotient => subtract quotient pivot e
  | none =>
    let scaled ← e.scale pivot.leading
    subtract e.leading pivot scaled

end Equation

/-- Takes out the first equation that has the next unknown and puts `first` in its
place. -/
def exchange (first : Equation) : List Equation → Option (Equation × List Equation)
  | [] => none
  | e :: rest =>
    if e.leading ≠ 0 then some (e, first :: rest)
    else (exchange first rest).map fun (pivot, others) => (pivot, e :: others)

/-- The first equation that has the next unknown, and the others: the first equation of
all takes its place. -/
def selectPivot : List Equation → Option (Equation × List Equation)
  | [] => none
  | e :: rest => if e.leading ≠ 0 then some (e, rest) else exchange e rest

/-- What elimination finds out about an unknown. -/
inductive Column where
  /-- No equation determines it. An available row then takes part. -/
  | free (available : Bool)
  /-- It is determined by the unknowns after it: `leading · x + later · xs = target`. -/
  | pivot (leading : Int) (later : List Int) (target : Int)
  deriving DecidableEq

/-- Treats the unknowns one after the other; for each one it is told whether its row is
available. -/
def eliminate : List Bool → List Equation → Except Failure (List Column)
  | [], _ => .ok []
  | available :: rest, equations =>
    match selectPivot equations with
    | none => do
      let columns ← eliminate rest (equations.map Equation.tail)
      return .free available :: columns
    | some (pivot, others) => do
      let reduced ← others.mapM pivot.reduce
      let columns ← eliminate rest (reduced.map Equation.tail)
      return .pivot pivot.leading pivot.tail.coefficients pivot.target :: columns

/-! ## Back substitution -/

/-- Subtracts `later · values` from `rest` term by term. -/
def remainder (rest : Int) : List (Int × Int) → Except Failure Int
  | [] => .ok rest
  | (coefficient, value) :: terms => do
    let product ← checked (coefficient * value)
    let rest ← checked (rest - product)
    remainder rest terms

/-- Assigns values from right to left. A free unknown gets the scale if its row is
available, and else 0. A pivot gets the quotient that its equation asks for; if the
quotient is not exact, everything else is multiplied by the divisor. -/
def substitute : List Column → Except Failure Weights
  | [] => .ok { coefficients := [], scale := 1 }
  | .free available :: rest => do
    let w ← substitute rest
    return { w with coefficients := (if available then w.scale else 0) :: w.coefficients }
  | .pivot leading later target :: rest => do
    let w ← substitute rest
    let value ← checked (w.scale * target)
    let value ← remainder value (later.zip w.coefficients)
    match ← exactQuotient value leading with
    | some quotient => return { w with coefficients := quotient :: w.coefficients }
    | none =>
      let coefficients ← w.coefficients.mapM fun c => checked (c * leading)
      let scale ← checked (w.scale * leading)
      return { coefficients := value :: coefficients, scale }

/-! ## Normal form -/

/-- Weights with their signs turned so that the scale is not negative. -/
def makePositive (w : Weights) : Except Failure Weights :=
  if w.scale < 0 then do
    let scale ← checked (-w.scale)
    let coefficients ← w.coefficients.mapM fun c => checked (-c)
    return { coefficients, scale }
  else .ok w

/-- The greatest common divisor of the scale and all weights. -/
def commonDivisor (w : Weights) : Nat :=
  w.coefficients.foldl (fun divisor c => Nat.gcd divisor c.natAbs) w.scale.natAbs

/-- Weights with their common divisor taken out. -/
def takeOutDivisor (w : Weights) : Weights :=
  let divisor : Int := commonDivisor w
  if divisor ≤ 1 then w
  else
    { coefficients := w.coefficients.map (·.tdiv divisor)
      scale := w.scale.tdiv divisor }

/-! ## The system of a matrix -/

/-- The first `columns` columns of some rows. -/
def transpose : Nat → List (List Int) → List (List Int)
  | 0, _ => []
  | n + 1, rows => rows.map (·.headD 0) :: transpose n (rows.map List.tail)

/-- A row as coefficients: unavailable rows contribute nothing. -/
def contribution (available : Bool) (row : List Int32) : List Int :=
  row.map fun entry => if available then entry.toInt else 0

/-- The equations of a matrix, one per column: the first column sums up to 1, the others
to 0. -/
def system (columns : Nat) (available : List Bool) (rows : List (List Int32)) :
    List Equation :=
  match transpose columns (List.zipWith contribution available rows) with
  | [] => []
  | first :: rest => ⟨first, 1⟩ :: rest.map (⟨·, 0⟩)

/-- For every row whether it is available. -/
def availability (rowCount : Nat) (unavailable : List Nat) : List Bool :=
  (List.range rowCount).map fun row => !unavailable.contains row

end Elimination

open Elimination in
/-- Weights for the rows that are not in `unavailable`; the numbers in there may exceed
the number of rows. The rows have to be of one width, and there has to be one. -/
def reconstructionWeights (rows : List (List Int32)) (unavailable : List Nat) :
    Except Failure Weights :=
  if rows.isEmpty then .error .emptyMatrix
  else
    match firstRagged (width rows) rows with
    | some (row, index) =>
      .error (.invalidCiphertext (.raggedRow index row.length (width rows)))
    | none => do
      let available := availability rows.length unavailable
      let columns ← eliminate available (system (width rows) available rows)
      let w ← substitute columns
      let w ← makePositive w
      return takeOutDivisor w

/-- The weights of a matrix for the rows that are not in `unavailable`. -/
def ShareMatrix.weights (m : ShareMatrix) (unavailable : List Nat) : Except Failure Weights :=
  reconstructionWeights m.rows unavailable

end AttributeEncryption
