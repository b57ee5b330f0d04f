import LiveMarkup.Data.Double

/-!
# The shortest decimal text of a number

A number is written with the fewest significant digits that read back as the same number, and
among texts of that length with the nearest one. The search is over exact quotients: a decimal
reads back as `x` if it lies in the interval of reals that round to `x`, whose ends belong to it
exactly when the mantissa is even. For each count of digits only the two neighbours of `x` on that
decimal grid have to be tried, since if any point of the grid lies in the interval then so does
one of these.
-/

namespace LiveMarkup

/-- The number `0.d₁d₂… · 10 ^ (exponent + 1)`, where `exponent` is that of the first digit. -/
structure Decimal where
  digits : List Nat
  exponent : Int
deriving DecidableEq, Repr

namespace Decimal

/-- The decimal digits of a natural number, most significant first; none for zero. -/
def digitsOf (n : Nat) : List Nat := go n []
where
  /-- The digits of `n` in front of `acc`. -/
  go (n : Nat) (acc : List Nat) : List Nat :=
    if h : n = 0 then acc else go (n / 10) (n % 10 :: acc)
  termination_by n
  decreasing_by omega

/-- The decimal `n · 10 ^ e` without zeros at its end. -/
def ofScaled (n : Nat) (e : Int) : Decimal :=
  let ds := digitsOf n
  ⟨(ds.reverse.dropWhile (· == 0)).reverse, e + ds.length - 1⟩

end Decimal

namespace Double

/-- The interval of reals that round to the number, as numerators over four times the number's
own denominator: its lower end, its upper end, and that denominator. -/
def interval (x : Double) : Nat × Nat × Nat :=
  let (num, den) :=
    if 0 ≤ x.exponent then (twoTo x.exponent.toNat, 1) else (1, twoTo (-x.exponent).toNat)
  let low := if x.mantissa = twoTo 52 && minExponent < x.exponent then 1 else 2
  ((4 * x.mantissa - low) * num, (4 * x.mantissa + 2) * num, 4 * den)

/-- Whether `n · 10 ^ e` reads back as the number. -/
def readsBack (x : Double) (n : Nat) (e : Int) : Bool :=
  let (lo, hi, den) := x.interval
  let (a, b) := if 0 ≤ e then (n * tenTo e.toNat, 1) else (n, tenTo (-e).toNat)
  if x.mantissa % 2 = 0 then lo * b ≤ a * den && a * den ≤ hi * b
  else lo * b < a * den && a * den < hi * b

/-- The exponent of the first decimal digit of the positive quotient `num / den`. -/
def leadingExponent (num den : Nat) : Int :=
  if den ≤ num then ((Decimal.digitsOf (num / den)).length : Int) - 1
  else
    let below := ((List.range 400).find? fun k ↦ den ≤ num * tenTo k).getD 0
    Int.neg below

/-- The decimal with `count` digits that reads back as the number and is nearest to it. -/
def withDigits? (x : Double) (count : Nat) : Option Decimal :=
  let (num, den) := x.ratio
  let e := leadingExponent num den - count + 1
  let (a, b) := if 0 ≤ e then (num, den * tenTo e.toNat) else (num * tenTo (-e).toNat, den)
  let low := a / b
  let twice := 2 * (a % b)
  match x.readsBack low e, x.readsBack (low + 1) e with
  | true, true =>
    let n := if twice < b || (twice == b && low % 2 == 0) then low else low + 1
    some (.ofScaled n e)
  | true, false => some (.ofScaled low e)
  | false, true => some (.ofScaled (low + 1) e)
  | false, false => none

/-- The shortest decimal that reads back as the number; no digits for a zero. -/
def shortest (x : Double) : Decimal :=
  if x.mantissa = 0 then ⟨[], 0⟩
  else ((List.range 17).findSome? fun k ↦ x.withDigits? (k + 1)).getD ⟨[], 0⟩

/-- A decimal digit as a character. -/
def digitChar (d : Nat) : Char := Char.ofNat ('0'.toNat + d)

/-- The text of a number: positional with at least one digit on either side of the point when the
first digit's exponent is from -5 to 15, otherwise with a signed exponent and no more digits than
needed. -/
def toText (x : Double) : List Char :=
  let d := x.shortest
  let ds := d.digits.map digitChar
  let body :=
    if ds.isEmpty then "0.0".toList
    else if 0 ≤ d.exponent && d.exponent ≤ 15 then
      let k := d.exponent.toNat + 1
      let whole := ds.take k ++ List.replicate (k - ds.length) '0'
      let rest := ds.drop k
      whole ++ '.' :: (if rest.isEmpty then ['0'] else rest)
    else if -5 ≤ d.exponent && d.exponent < 0 then
      '0' :: '.' :: List.replicate ((-d.exponent).toNat - 1) '0' ++ ds
    else
      let point := match ds with
        | [c] => [c]
        | c :: cs => c :: '.' :: cs
        | [] => []
      let sign := if d.exponent < 0 then '-' else '+'
      point ++ 'e' :: sign :: (Nat.repr d.exponent.natAbs).toList
  if x.negative then '-' :: body else body

end Double

end LiveMarkup
