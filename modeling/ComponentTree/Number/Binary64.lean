/-!
Binary floating-point numbers of 64 bits, held exactly.

A finite number is a sign and a count of units of `2^-1074`; the count is a mantissa below `2^53`
times a power of two, in the one canonical form that the type demands. Every operation forms an
exact ratio of natural numbers and rounds it once, to the nearest number and to the even mantissa
when two are equally near.
-/

namespace ComponentTree

/-- A finite binary64 number, `mantissa * 2 ^ scale` units of `2 ^ -1074` with a sign. The
mantissa is below `2 ^ 53`, and at least `2 ^ 52` unless the scale is zero, so a value has one
form, up to the sign of zero. -/
structure Binary64.Finite where
  negative : Bool
  mantissa : Nat
  scale : Nat
  canonical : mantissa < 9007199254740992 ∧ scale ≤ 2045 ∧
    (scale = 0 ∨ 4503599627370496 ≤ mantissa)
deriving DecidableEq

/-- A binary64 number: not a number, an infinity with its sign, or finite. -/
inductive Binary64 where
  | nan
  | infinity (negative : Bool)
  | finite (value : Binary64.Finite)
deriving DecidableEq

/-- The quotient of two naturals rounded to the nearest natural, a half going to the even one. -/
def roundDiv (num den : Nat) : Nat :=
  let quotient := num / den
  let twice := 2 * (num % den)
  if twice < den then quotient
  else if den < twice then quotient + 1
  else quotient + quotient % 2

namespace Binary64

/-- The number of units `2 ^ -1074` in one. -/
def unitsPerOne : Nat := Nat.pow 2 1074

namespace Finite

/-- The magnitude as a count of units. -/
def units (x : Finite) : Nat := x.mantissa * Nat.pow 2 x.scale

/-- Zero with the given sign. -/
def zero (negative : Bool) : Finite := ⟨negative, 0, 0, by decide⟩

instance : Inhabited Finite := ⟨zero false⟩

/-- Whether the number is zero, of either sign. -/
def isZero (x : Finite) : Bool := x.mantissa == 0

/-- Numeric equality, under which the two zeros are one number. -/
def same (x y : Finite) : Bool := decide (x = y) || (x.isZero && y.isZero)

/-- The magnitude as a natural number, if the number has no fractional part. -/
def magnitude? (x : Finite) : Option Nat :=
  if x.units % unitsPerOne = 0 then some (x.units / unitsPerOne) else none

/-- The number as an integer, if it has no fractional part. -/
def toInt? (x : Finite) : Option Int :=
  x.magnitude?.map fun n => if x.negative then -(n : Int) else n

/-- The same magnitude with the other sign. -/
def neg (x : Finite) : Finite := { x with negative := !x.negative }

end Finite

/-- The number with the given parts if they are in range, and an infinity otherwise. -/
def pack (negative : Bool) (mantissa scale : Nat) : Binary64 :=
  if h : mantissa < 9007199254740992 ∧ scale ≤ 2045 ∧
      (scale = 0 ∨ 4503599627370496 ≤ mantissa) then
    .finite ⟨negative, mantissa, scale, h⟩
  else .infinity negative

/-- The number nearest to `num / den`, whose denominator is positive. -/
def ofRatio (negative : Bool) (num den : Nat) : Binary64 :=
  let units := num * unitsPerOne
  let scale := Nat.log2 (units / den) - 52
  let mantissa := roundDiv units (den * Nat.pow 2 scale)
  if mantissa = 9007199254740992 then pack negative 4503599627370496 (scale + 1)
  else pack negative mantissa scale

/-- The number nearest to an integer. -/
def ofInt (i : Int) : Binary64 := ofRatio (decide (i < 0)) i.natAbs 1

/-- The finite number inside, if there is one. -/
def toFinite? : Binary64 → Option Finite
  | .finite x => some x
  | _ => none

/-- Numeric equality: a number that is not one differs from itself, and zeros are equal. -/
def same : Binary64 → Binary64 → Bool
  | .nan, _ | _, .nan => false
  | .infinity s, .infinity t => s == t
  | .finite x, .finite y => x.same y
  | _, _ => false

/-- The product of two finite numbers, rounded once. -/
def mul (x y : Finite) : Binary64 :=
  ofRatio (x.negative != y.negative) (x.units * y.units) (unitsPerOne * unitsPerOne)

/-- The quotient of two finite numbers, the second not zero, rounded once. -/
def div (x y : Finite) : Binary64 :=
  ofRatio (x.negative != y.negative) x.units y.units

end Binary64

end ComponentTree
