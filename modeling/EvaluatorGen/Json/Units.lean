/-!
The contents of a JSON string as code units.

An escape `\uXXXX` gives a UTF-16 unit and any other character its code point. A high
surrogate directly followed by a low one is one character; a surrogate that stands alone is
none, and neither is a byte that is not UTF-8.
-/
namespace EvaluatorGen.Json

/-- The unit that stands for a byte that is not UTF-8. It is above every code point. -/
def strayUnit : Nat := 0x110000

def isHighSurrogate (u : Nat) : Bool := decide (0xD800 ≤ u) && decide (u ≤ 0xDBFF)

def isLowSurrogate (u : Nat) : Bool := decide (0xDC00 ≤ u) && decide (u ≤ 0xDFFF)

/-- The character that a pair of surrogates stands for. -/
def surrogatePair (high low : Nat) : Char :=
  Char.ofNat (0x10000 + (high - 0xD800) * 0x400 + (low - 0xDC00))

/-- A unit that is a character by itself. -/
def charOfUnit? (u : Nat) : Option Char :=
  if isHighSurrogate u || isLowSurrogate u || decide (strayUnit ≤ u) then none
  else some (Char.ofNat u)

/-- The characters of a list of units, if all of them belong to one. -/
def charsOfUnits? : List Nat → Option (List Char)
  | [] => some []
  | [u] => (charOfUnit? u).map ([·])
  | u :: v :: rest =>
    if isHighSurrogate u && isLowSurrogate v then
      (charsOfUnits? rest).map (surrogatePair u v :: ·)
    else do
      let c ← charOfUnit? u
      let cs ← charsOfUnits? (v :: rest)
      return c :: cs

/-- The text of a list of units, if all of them belong to a character. -/
def textOfUnits? (units : List Nat) : Option String :=
  (charsOfUnits? units).map String.ofList

/-- A surrogate stands alone. A high one at the end may still find its partner. -/
def hasLoneSurrogate : List Nat → Bool
  | [] => false
  | [u] => isLowSurrogate u
  | u :: v :: rest =>
    if isHighSurrogate u then !isLowSurrogate v || hasLoneSurrogate rest
    else isLowSurrogate u || hasLoneSurrogate (v :: rest)

def hexDigit? (c : Char) : Option Nat :=
  if c.isDigit then some (c.toNat - '0'.toNat)
  else if 'a' ≤ c ∧ c ≤ 'f' then some (c.toNat - 'a'.toNat + 10)
  else if 'A' ≤ c ∧ c ≤ 'F' then some (c.toNat - 'A'.toNat + 10)
  else none

/-- The unit written by hexadecimal digits, the first one highest. -/
def hexUnit? (digits : List Char) : Option Nat :=
  digits.foldlM (fun u c => (hexDigit? c).map (16 * u + ·)) 0

end EvaluatorGen.Json
