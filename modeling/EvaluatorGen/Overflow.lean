/-!
Arithmetic on 64-bit sizes that may leave its range.

Sizes are words of 64 bits. A sum or a product of sizes that does not fit in a word has no
value: it is an overflow, which ends the computation it occurs in.
-/
namespace EvaluatorGen

inductive Overflow where
  | add
  | multiply
  deriving DecidableEq, Repr

def Overflow.message : Overflow → String
  | .add => "attempt to add with overflow"
  | .multiply => "attempt to multiply with overflow"

/-- The product of two sizes, if it fits in a word. -/
def checkedMul (a b : UInt64) : Except Overflow UInt64 :=
  if a.toNat * b.toNat < UInt64.size then .ok (a * b) else .error .multiply

/-- The product of a list of sizes, taken from the left. A partial product that does not fit
    is an overflow even if a later factor is zero. -/
def checkedProduct (sizes : List UInt64) : Except Overflow UInt64 :=
  sizes.foldlM checkedMul 1

/-- A number that must be a size. -/
def checkedSize (n : Nat) : Except Overflow Unit :=
  if n < UInt64.size then .ok () else .error .add

end EvaluatorGen
