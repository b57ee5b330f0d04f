/-!
# Binary floating-point numbers

A finite number of the 64-bit binary format, held as a sign, a mantissa and an exponent: it stands
for `±mantissa · 2 ^ exponent`. The form is canonical, `mantissa < 2 ^ 53`, `-1074 ≤ exponent ≤ 971`
and `2 ^ 52 ≤ mantissa` unless the exponent is the least one, so equal numbers are equal values
(the two zeros differ in sign). There are no infinities: an operation whose result has no finite
representation answers `none`.

Every operation rounds the exact quotient of two natural numbers once, to nearest with ties to
the even mantissa, so that nothing here depends on the arithmetic of the machine.
-/

namespace LiveMarkup

/-- The number `2 ^ k`. -/
def twoTo (k : Nat) : Nat := Nat.pow 2 k

/-- The number `10 ^ k`. -/
def tenTo (k : Nat) : Nat := Nat.pow 10 k

/-- The finite number `±mantissa · 2 ^ exponent`. -/
structure Double where
  negative : Bool
  mantissa : Nat
  exponent : Int
deriving DecidableEq, Repr, Inhabited

namespace Double

/-- The least exponent. -/
def minExponent : Int := -1074

/-- The greatest exponent. -/
def maxExponent : Int := 971

/-- The zero of the given sign. -/
def zero (negative : Bool) : Double := ⟨negative, 0, minExponent⟩

/-- The quotient rounded to the nearest natural number, a tie to the even one. -/
def roundDiv (num den : Nat) : Nat :=
  let q := num / den
  let r := num % den
  if 2 * r < den then q else if den < 2 * r then q + 1 else if q % 2 = 0 then q else q + 1

/-- The pair `(a, b)` with `a / b = (num / den) / 2 ^ e`. -/
def scale (num den : Nat) (e : Int) : Nat × Nat :=
  if 0 ≤ e then (num, den * twoTo e.toNat) else (num * twoTo (-e).toNat, den)

/-- The exponent at which the quotient `num / den` has 53 binary digits before the point, or the
least exponent if the quotient is smaller than that. -/
def quotientExponent (num den : Nat) : Int :=
  let e := max ((num.log2 : Int) - den.log2 - 53) minExponent
  let (a, b) := scale num den e
  if twoTo 53 ≤ a / b then e + 1 else e

/-- The number nearest to `±num / den`, if it is finite. -/
def ofRatio? (negative : Bool) (num den : Nat) : Option Double :=
  let e := quotientExponent num den
  let (a, b) := scale num den e
  let m := roundDiv a b
  let (m, e) := if m = twoTo 53 then (twoTo 52, e + 1) else (m, e)
  if m = 0 then some (zero negative) else if maxExponent < e then none else some ⟨negative, m, e⟩

/-- The number as a quotient of natural numbers, without its sign. -/
def ratio (x : Double) : Nat × Nat :=
  if 0 ≤ x.exponent then (x.mantissa * twoTo x.exponent.toNat, 1)
  else (x.mantissa, twoTo (-x.exponent).toNat)

/-- The number nearest to a natural number. -/
def ofNat? (n : Nat) : Option Double := ofRatio? false n 1

/-- The product, rounded. -/
def mul? (x y : Double) : Option Double :=
  let (a, b) := x.ratio
  let (c, d) := y.ratio
  ofRatio? (x.negative != y.negative) (a * c) (b * d)

/-- The quotient by a number other than zero, rounded. -/
def div? (x y : Double) : Option Double :=
  let (a, b) := x.ratio
  let (c, d) := y.ratio
  ofRatio? (x.negative != y.negative) (a * d) (b * c)

/-- The number with the other sign. -/
def neg (x : Double) : Double := { x with negative := !x.negative }

/-- The number nearest to `10 ^ k`. -/
def powerOfTen? (k : Nat) : Option Double := ofNat? (tenTo k)

example : ofNat? 1 = some ⟨false, 0x10000000000000, -52⟩ := by decide +kernel
example : ofRatio? true 1 10 = some ⟨true, 0x1999999999999A, -56⟩ := by decide +kernel
example : powerOfTen? 309 = none := by decide +kernel

end Double

end LiveMarkup
