import EvaluatorGen.Binary64.Basic

/-!
Rounding to nearest, ties to even, and its two uses: reading a decimal as a double precision
number, and writing a number with nine decimal places.
-/
namespace EvaluatorGen

/-- The natural number nearest to `num / den`, the even one of two that are as near. -/
def roundDiv (num den : Nat) : Nat :=
  let q := num / den
  let r := num % den
  if 2 * r < den then q
  else if den < 2 * r then q + 1
  else if q % 2 = 0 then q else q + 1

namespace Binary64

/-- The magnitude nearest to `num / den`.

    In units of 2⁻¹⁰⁷⁴ a magnitude below 2⁵³ is a whole number of units; above, 53 leading
    bits are kept and `shift` bits rounded away. The significand and `shift` make up the
    bits, and a significand that is rounded up to 2⁵³ carries into the exponent. A number
    too large to be finite is infinite. -/
def nearestMagnitude (num den : Nat) : Nat :=
  let scaled := num * Nat.pow 2 1074
  let shift := Nat.log2 (scaled / den) - 52
  min (shift * Nat.pow 2 52 + roundDiv scaled (den * Nat.pow 2 shift)) infinity

/-- The number nearest to `digits · 10^exponent`, with the given sign also if it is zero.

    Nothing but zero is below 10⁻⁴⁰⁰ and nothing but infinity from 10⁴⁰⁰, so powers of ten
    outside these bounds are not computed. -/
def ofDecimal (negative : Bool) (digits : Nat) (exponent : Int) : Binary64 :=
  ofMagnitude negative <|
    if digits = 0 then 0
    else if 400 < exponent then infinity
    else if exponent + Nat.log2 digits < -400 then 0
    else nearestMagnitude (digits * Nat.pow 10 exponent.toNat) (Nat.pow 10 (-exponent).toNat)

/-- The decimal digits of `n` behind as many zeros as make `width` digits. -/
def padDigits (width n : Nat) : String :=
  let digits := Nat.toDigits 10 n
  String.ofList (List.replicate (width - digits.length) '0' ++ digits)

def billion : Nat := 1000000000

/-- The number of units of 10⁻⁹ nearest to a finite number's magnitude. -/
def billionths (x : Binary64) : Nat :=
  roundDiv (x.units * billion) (Nat.pow 2 1074)

/-- A finite number with nine decimal places and no exponent. The sign bit is written also
    in front of a zero. -/
def toFixed (x : Binary64) : String :=
  (if x.isNegative then "-" else "") ++ (x.billionths / billion).repr ++ "." ++
    padDigits 9 (x.billionths % billion)

end Binary64

end EvaluatorGen
