import ComponentTree.Number.Decimal

/-!
How decimals are laid out as text.

A layout says which decimals are written positionally, what follows an integral value, and which
of two equally near shortest decimals is meant. The module holds the mechanism; the two layouts in
use stand with the formats that use them.
-/

namespace ComponentTree

/-- The decisions that turn a number into text. -/
structure Layout where
  /-- Which of two equally near decimals is written. -/
  tie : Tie
  /-- Whether a decimal whose point stands at this place is written without exponent. -/
  positional : Int → Bool
  /-- What follows the digits of an integral value. -/
  afterIntegral : List Char

namespace Layout

/-- The digits with the point put in, and zeros as far as the point is from the digits. -/
def positionalText (layout : Layout) (ds : List Char) (point : Int) : List Char :=
  if point ≤ 0 then '0' :: '.' :: (List.replicate point.natAbs '0' ++ ds)
  else
    let whole := point.natAbs
    if ds.length ≤ whole then
      ds ++ List.replicate (whole - ds.length) '0' ++ layout.afterIntegral
    else ds.take whole ++ '.' :: ds.drop whole

/-- One digit, the others after a point, and the exponent with its sign. -/
def exponentText (ds : List Char) (point : Int) : List Char :=
  let e := point - 1
  let fraction := ds.drop 1
  ds.take 1 ++ (if fraction.isEmpty then [] else '.' :: fraction) ++
    ['e', if e < 0 then '-' else '+'] ++ Nat.toDigits 10 e.natAbs

/-- The text of a decimal. -/
def decimalText (layout : Layout) (d : Decimal) : List Char :=
  if d.significand = 0 then '0' :: layout.afterIntegral
  else if layout.positional d.point then layout.positionalText d.digits d.point
  else exponentText d.digits d.point

/-- The text of a finite number: its sign, zero included, and its shortest decimal. -/
def finiteText (layout : Layout) (x : Binary64.Finite) : String :=
  String.ofList ((if x.negative then ['-'] else []) ++
    layout.decimalText (Decimal.shortest layout.tie x))

end Layout

/-- Numbers shown to readers: never an exponent, and no point after an integral value. -/
def Layout.plain : Layout := ⟨.up, fun _ => true, []⟩

/-- The text of any number, those that are not finite included. -/
def Binary64.display : Binary64 → String
  | .nan => "NaN"
  | .infinity true => "-inf"
  | .infinity false => "inf"
  | .finite x => Layout.plain.finiteText x

end ComponentTree
