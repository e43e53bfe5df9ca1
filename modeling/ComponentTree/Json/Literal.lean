import ComponentTree.Json
import ComponentTree.Number.Layout

/-!
The numbers of literal data, and how they are written in JSON text.

A number without point and exponent is an integer if it fits 64 bits, signed or unsigned; every
other number is binary64. The digits of a token are gathered as long as the significand fits 64
bits and the result is scaled by a power of ten in binary64, so a value is rounded at most twice
(and once more for each `10 ^ 308` of a very small one).
-/

namespace ComponentTree

/-- An integer that fits 64 bits, signed or unsigned: from `-2 ^ 63` up to, and without,
`2 ^ 64`. -/
structure Json.Integer where
  value : Int
  inRange : -9223372036854775808 ≤ value ∧ value < 18446744073709551616
deriving DecidableEq

/-- A number of literal data keeps its kind: an integer differs from a binary64 number. -/
inductive Json.Number where
  | integer (n : Json.Integer)
  | float (x : Binary64.Finite)
deriving DecidableEq

/-- Literal data: a JSON value as a tree holds it. -/
abbrev Literal := Json Json.Number

/-- A number as it stands in a text: its sign, its digits, and the parts that may be missing. The
exponent carries whether it is negative. -/
structure NumberToken where
  negative : Bool
  whole : List Char
  fraction : Option (List Char)
  exponent : Option (Bool × List Char)
deriving DecidableEq

namespace Json.Number

/-- The integer as a number, if it fits. -/
def ofInt? (i : Int) : Option Number :=
  if h : -9223372036854775808 ≤ i ∧ i < 18446744073709551616 then some (.integer ⟨i, h⟩)
  else none

/-- Equality of numbers of one kind; the two binary64 zeros are equal. -/
def same : Number → Number → Bool
  | .integer m, .integer n => m.value == n.value
  | .float x, .float y => x.same y
  | _, _ => false

/-- The number as binary64. -/
def toBinary64 : Number → Binary64
  | .integer n => Binary64.ofInt n.value
  | .float x => .finite x

/-- The value of an integer that fits 64 signed bits. -/
def signed? : Number → Option Int
  | .integer n => if n.value < 9223372036854775808 then some n.value else none
  | .float _ => none

/-- Binary64 numbers in JSON text: an exponent below `10 ^ -5` and from `10 ^ 16` on, and always a
point otherwise. -/
def layout : Layout := ⟨.toEven, fun point => -4 ≤ point && point ≤ 16, ['.', '0']⟩

/-- The JSON text of a number. -/
def text : Number → String
  | .integer n => toString n.value
  | .float x => layout.finiteText x

end Json.Number

namespace NumberToken

/-- Appends digits to a significand while it fits 64 bits; gives it with the number of digits that
did not go in. From the first digit that does not fit, none goes in. -/
def gather : Nat → List Char → Nat × Nat
  | s, [] => (s, 0)
  | s, c :: cs =>
    if 10 * s + Decimal.digitValue c < 18446744073709551616 then
      gather (10 * s + Decimal.digitValue c) cs
    else (s, cs.length + 1)

/-- The finite binary64 number nearest to `10 ^ n`, for `n` at most 308. -/
def powerOfTen (n : Nat) : Binary64.Finite :=
  (Binary64.ofRatio false (Nat.pow 10 n) 1).toFinite?.getD default

/-- `x` times `10 ^ e`, unless that is too large. Powers down to `10 ^ -308` are one division; for
smaller ones `10 ^ 308` is divided off first, and three times is enough to reach zero. -/
def scaleByTen : Nat → Binary64.Finite → Int → Option Binary64.Finite
  | 0, x, _ => some (Binary64.Finite.zero x.negative)
  | fuel + 1, x, e =>
    if e.natAbs ≤ 308 then
      (if 0 ≤ e then Binary64.mul x (powerOfTen e.natAbs)
        else Binary64.div x (powerOfTen e.natAbs)).toFinite?
    else if x.isZero then some x
    else if 0 ≤ e then none
    else
      match (Binary64.div x (powerOfTen 308)).toFinite? with
      | some y => scaleByTen fuel y (e + 308)
      | none => none

/-- The exponent that stands in the token, zero if there is none. -/
def exponentValue (t : NumberToken) : Int :=
  match t.exponent with
  | none => 0
  | some (true, ds) => -(Decimal.valueOf ds : Int)
  | some (false, ds) => Decimal.valueOf ds

/-- The token as a binary64 number, unless that is too large. -/
def float? (t : NumberToken) : Option Binary64.Finite :=
  let fraction := t.fraction.getD []
  let (head, leftOut) := gather 0 t.whole
  let (significand, unread) := gather head fraction
  let e := (leftOut : Int) - (fraction.length - unread : Nat) + t.exponentValue
  match (Binary64.ofInt significand).toFinite? with
  | some x => (scaleByTen 4 x e).map fun y => if t.negative then y.neg else y
  | none => none

/-- The number that the token stands for: an integer if it is written as one, fits 64 bits and is
not `-0`; a binary64 number otherwise. -/
def number? (t : NumberToken) : Option Json.Number :=
  let n := Decimal.valueOf t.whole
  let integer :=
    if t.fraction.isNone && t.exponent.isNone && !(t.negative && n == 0) then
      Json.Number.ofInt? (if t.negative then -(n : Int) else n)
    else none
  match integer with
  | some i => some i
  | none => t.float?.map .float

end NumberToken

/-- The literal of an integer, reduced to 64 signed bits. -/
def Literal.ofInt (i : Int) : Literal :=
  .number (.integer ⟨i.bmod 18446744073709551616, by
    have := Int.le_bmod (x := i) (m := 18446744073709551616) (by decide)
    have := Int.bmod_lt (x := i) (m := 18446744073709551616) (by decide)
    omega⟩)

/-- The text of a literal that is one, `null` otherwise. -/
def Literal.ofText? : Option String → Literal
  | some s => .string s
  | none => .null

/-- The value of a literal that is an integer of 64 signed bits. -/
def Literal.signed? : Literal → Option Int
  | .number n => n.signed?
  | _ => none

/-- Equality of literal data, up to the order of object members. -/
def Literal.same : Literal → Literal → Bool := Json.sameBy Json.Number.same

end ComponentTree
