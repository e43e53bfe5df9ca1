import ComponentTree.Number.Decimal

/-!
Numbers from decimal text, rounded once.

Besides decimals with an optional point and exponent, the words for infinity and for what is not a
number are read, in either case.
-/

namespace ComponentTree.Decimal

/-- Splits off the digits in front. -/
def spanDigits (cs : List Char) : List Char × List Char :=
  (cs.takeWhile Char.isDigit, cs.dropWhile Char.isDigit)

/-- A sign in front: whether it is a minus, and the rest. -/
def sign : List Char → Bool × List Char
  | '-' :: cs => (true, cs)
  | '+' :: cs => (false, cs)
  | cs => (false, cs)

/-- An exponent that ends the text, or nothing. -/
def exponent? : List Char → Option Int
  | [] => some 0
  | c :: cs =>
    if c = 'e' || c = 'E' then
      let (negative, cs) := sign cs
      let (ds, rest) := spanDigits cs
      if ds.isEmpty || !rest.isEmpty then none
      else some (if negative then -(valueOf ds : Int) else valueOf ds)
    else none

/-- The binary64 number nearest to `significand * 10 ^ e`. Decimals that are far out of range are
settled by their number of digits. -/
def toBinary64 (negative : Bool) (significand : Nat) (e : Int) : Binary64 :=
  let height := e + (Nat.toDigits 10 significand).length
  if significand = 0 || height < -400 then .finite (.zero negative)
  else if 400 < height then .infinity negative
  else if 0 ≤ e then Binary64.ofRatio negative (significand * Nat.pow 10 e.natAbs) 1
  else Binary64.ofRatio negative significand (Nat.pow 10 e.natAbs)

/-- A decimal without its sign: digits with at most one point among or around them, and an
exponent. -/
def unsigned? (negative : Bool) (cs : List Char) : Option Binary64 :=
  let (whole, cs) := spanDigits cs
  let (fraction, cs) := match cs with
    | '.' :: cs => spanDigits cs
    | cs => ([], cs)
  if whole.isEmpty && fraction.isEmpty then none
  else
    let significand := valueOf (whole ++ fraction)
    (exponent? cs).map fun e => toBinary64 negative significand (e - fraction.length)

end ComponentTree.Decimal

namespace ComponentTree

/-- The number that a text stands for. -/
def Binary64.ofText? (text : String) : Option Binary64 :=
  let (negative, cs) := Decimal.sign text.toList
  let word := String.ofList (cs.map Char.toLower)
  if word = "nan" then some .nan
  else if word = "inf" || word = "infinity" then some (.infinity negative)
  else Decimal.unsigned? negative cs

end ComponentTree
