import EvaluatorGen.Json.Value

/-!
JSON numbers, read one character at a time.

A numeral is a sign, digits with an optional decimal point and an optional exponent. Its
value is exact until the end of the numeral, so reading rounds once.
-/
namespace EvaluatorGen.Json

/-- What the last character of an unfinished numeral was. -/
inductive NumeralPart where
  | sign
  | zero
  | whole
  | point
  | fraction
  | mark
  | markSign
  | exponent
  deriving DecidableEq, Repr

/-- A numeral read so far: `digits · 10^(±exponent - places)`. -/
structure Numeral where
  part : NumeralPart
  negative : Bool
  digits : Nat := 0
  places : Nat := 0
  exponentNegative : Bool := false
  exponent : Nat := 0
  deriving DecidableEq, Repr

def digitValue (c : Char) : Nat := c.toNat - '0'.toNat

namespace Numeral

/-- The numeral with one more digit in front of its exponent. -/
def pushDigit (n : Numeral) (c : Char) : Numeral :=
  { n with digits := 10 * n.digits + digitValue c }

/-- The numeral with one more digit behind its decimal point. -/
def pushPlace (n : Numeral) (c : Char) : Numeral :=
  { n.pushDigit c with part := .fraction, places := n.places + 1 }

/-- The numeral that a first character starts, if it starts one. -/
def start? (c : Char) : Option Numeral :=
  if c = '-' then some { part := .sign, negative := true }
  else if c = '0' then some { part := .zero, negative := false }
  else if c.isDigit then some { part := .whole, negative := false, digits := digitValue c }
  else none

/-- The numeral followed by a point or an exponent mark. -/
def openPart (n : Numeral) (c : Char) : Option Numeral :=
  if c = 'e' ∨ c = 'E' then some { n with part := .mark }
  else if c = '.' ∧ n.part ≠ .fraction then some { n with part := .point }
  else none

/-- The numeral followed by one more character, if that character belongs to it. -/
def extend? (n : Numeral) (c : Char) : Option Numeral :=
  match n.part with
  | .sign =>
    if c = '0' then some { n with part := .zero }
    else if c.isDigit then some { n with part := .whole, digits := digitValue c }
    else none
  | .zero => n.openPart c
  | .whole =>
    if c.isDigit then some (n.pushDigit c) else n.openPart c
  | .point =>
    if c.isDigit then some (n.pushPlace c) else none
  | .fraction =>
    if c.isDigit then some (n.pushPlace c) else n.openPart c
  | .mark =>
    if c = '+' then some { n with part := .markSign }
    else if c = '-' then some { n with part := .markSign, exponentNegative := true }
    else if c.isDigit then some { n with part := .exponent, exponent := digitValue c }
    else none
  | .markSign =>
    if c.isDigit then some { n with part := .exponent, exponent := digitValue c } else none
  | .exponent =>
    if c.isDigit then some { n with exponent := 10 * n.exponent + digitValue c } else none

/-- A numeral may end after a digit only. -/
def isComplete (n : Numeral) : Bool :=
  match n.part with
  | .zero | .whole | .fraction | .exponent => true
  | .sign | .point | .mark | .markSign => false

/-- An integer that fits in 64 bits, if the numeral is written as one. Zero with a sign is
    none. -/
def integer? (n : Numeral) : Option Int :=
  match n.part with
  | .zero | .whole =>
    if n.negative then
      if 0 < n.digits ∧ n.digits ≤ Nat.pow 2 63 then some (-(n.digits : Int)) else none
    else if n.digits < UInt64.size then some n.digits else none
  | _ => none

def scale (n : Numeral) : Int :=
  (if n.exponentNegative then -(n.exponent : Int) else n.exponent) - n.places

/-- The value of a complete numeral. -/
def value (n : Numeral) : Value :=
  match n.integer? with
  | some i => .int i
  | none => .float (Binary64.ofDecimal n.negative n.digits n.scale)

end Numeral

end EvaluatorGen.Json
