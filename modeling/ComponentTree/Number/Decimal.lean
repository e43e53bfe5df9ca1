import ComponentTree.Number.Binary64

/-!
The shortest decimal that identifies a binary number.

A decimal identifies a binary number when it lies among the reals that round to that number. With
one digit, two digits and so on, the two neighbours of the number on the decimal grid of that many
digits are tried; the first grid with a hit gives the answer. Seventeen digits always suffice.
-/

namespace ComponentTree

/-- The non-negative decimal `significand * 10 ^ exponent`. -/
structure Decimal where
  significand : Nat
  exponent : Int
deriving DecidableEq, Repr

/-- Which of two equally near decimals is taken. -/
inductive Tie where
  | up
  | toEven
deriving DecidableEq, Repr

namespace Decimal

/-- The value of a decimal digit. -/
def digitValue (c : Char) : Nat := c.toNat - '0'.toNat

/-- The value of a row of digits. -/
def valueOf (ds : List Char) : Nat := ds.foldl (fun n c => 10 * n + digitValue c) 0

/-- Moves trailing zeros of the significand into the exponent, at most `fuel` of them. -/
def stripZeros : Nat → Decimal → Decimal
  | 0, d => d
  | fuel + 1, d =>
    if d.significand ≠ 0 ∧ d.significand % 10 = 0 then
      stripZeros fuel ⟨d.significand / 10, d.exponent + 1⟩
    else d

/-- The decimal digits of the significand, most significant first. -/
def digits (d : Decimal) : List Char := Nat.toDigits 10 d.significand

/-- The place of the decimal point counted from the first digit: the decimal is
`0.d₁d₂… * 10 ^ point`. -/
def point (d : Decimal) : Int := d.exponent + d.digits.length

/-- The decimal places that are kept apart from a number to make all its decimal grids whole. -/
def shift : Nat := 341

/-- A grid of decimals `0, step, 2 * step, …`, where `step = 10 ^ height / 10 ^ shift`. -/
structure Grid where
  height : Nat

namespace Grid

/-- Whether the `c`-th grid point lies among the reals that round to `x`. The interval reaches
halfway to each neighbour, and contains its ends when the mantissa is even. -/
def identifies (g : Grid) (x : Binary64.Finite) (c : Nat) : Bool :=
  let narrow := x.mantissa = 4503599627370496 ∧ x.scale ≠ 0
  let low := (if narrow then 4 * x.mantissa - 1 else 4 * x.mantissa - 2) * Nat.pow 2 x.scale *
    Nat.pow 10 shift
  let high := (4 * x.mantissa + 2) * Nat.pow 2 x.scale * Nat.pow 10 shift
  let here := c * Nat.pow 10 g.height * (4 * Binary64.unitsPerOne)
  if x.mantissa % 2 = 0 then low ≤ here && here ≤ high else low < here && here < high

/-- The number of the grid point just below `x`. -/
def below (g : Grid) (x : Binary64.Finite) : Nat :=
  x.units * Nat.pow 10 shift / (Binary64.unitsPerOne * Nat.pow 10 g.height)

/-- The nearer of the grid points `c` and `c + 1` that enclose `x`. -/
def nearer (g : Grid) (tie : Tie) (x : Binary64.Finite) (c : Nat) : Nat :=
  let twice := 2 * x.units * Nat.pow 10 shift
  let middle := (2 * c + 1) * (Binary64.unitsPerOne * Nat.pow 10 g.height)
  if twice < middle then c
  else if middle < twice then c + 1
  else match tie with
    | .up => c + 1
    | .toEven => c + c % 2

/-- The grid point that identifies `x` and lies nearest to it, if any does. -/
def select (g : Grid) (tie : Tie) (x : Binary64.Finite) : Option Nat :=
  let c := g.below x
  match g.identifies x c, g.identifies x (c + 1) with
  | true, true => some (g.nearer tie x c)
  | true, false => some c
  | false, true => some (c + 1)
  | false, false => none

end Grid

/-- Tries grids of falling height, and gives the first point found as a decimal. -/
def search (tie : Tie) (x : Binary64.Finite) : List Nat → Option Decimal
  | [] => none
  | height :: rest =>
    match Grid.select ⟨height⟩ tie x with
    | some c => some ⟨c, (height : Int) - shift⟩
    | none => search tie x rest

/-- The decimal with the fewest digits that identifies the magnitude of `x`, the nearest of those;
its significand has no trailing zero. -/
def shortest (tie : Tie) (x : Binary64.Finite) : Decimal :=
  if x.isZero then ⟨0, 0⟩
  else
    let whole := x.units * Nat.pow 10 shift / Binary64.unitsPerOne
    let places := (Nat.toDigits 10 whole).length
    let heights := (List.range 17).map fun n => places - (n + 1)
    stripZeros 700 ((search tie x heights).getD ⟨whole, -shift⟩)

end Decimal

end ComponentTree
