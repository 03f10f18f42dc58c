/-!
Double precision numbers, given by their IEEE 754 bits.

The magnitude of a finite number is a natural number of units of 2⁻¹⁰⁷⁴, the least positive
number, so all arithmetic below is on natural numbers and exact. The bits below the sign
order the magnitudes: zero, the finite numbers, infinity, then the patterns that are not
numbers.
-/
namespace EvaluatorGen

/-- A double precision number as its 64 bits. -/
structure Binary64 where
  bits : UInt64
  deriving DecidableEq, Repr, Inhabited

namespace Binary64

/-- The bits below the sign. -/
def magnitude (x : Binary64) : Nat := x.bits.toNat % Nat.pow 2 63

def isNegative (x : Binary64) : Bool := decide (Nat.pow 2 63 ≤ x.bits.toNat)

/-- The magnitude of infinity. -/
def infinity : Nat := 2047 * Nat.pow 2 52

def isFinite (x : Binary64) : Bool := decide (x.magnitude < infinity)

def isZero (x : Binary64) : Bool := decide (x.magnitude = 0)

/-- The number with the given sign and magnitude. -/
def ofMagnitude (negative : Bool) (magnitude : Nat) : Binary64 :=
  ⟨UInt64.ofNat (magnitude + if negative then Nat.pow 2 63 else 0)⟩

/-- The magnitude of a finite number in units of 2⁻¹⁰⁷⁴. -/
def units (x : Binary64) : Nat :=
  let exponent := x.magnitude / Nat.pow 2 52
  let fraction := x.magnitude % Nat.pow 2 52
  if exponent = 0 then fraction else (Nat.pow 2 52 + fraction) * Nat.pow 2 (exponent - 1)

/-- Equality as numbers: the two zeros are equal, and what is not a number equals nothing. -/
def equals (x y : Binary64) : Bool :=
  decide (x.magnitude ≤ infinity) && decide (y.magnitude ≤ infinity) &&
    (decide (x = y) || (x.isZero && y.isZero))

end Binary64

end EvaluatorGen
