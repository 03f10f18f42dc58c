/-!
Blank characters: the characters with the Unicode property White_Space.

A line is blank when all its characters are, and trimming drops the blank characters at
the end of a line.
-/
namespace EvaluatorGen.Text

/-- The code points of White_Space, as closed ranges in increasing order. -/
def blankRanges : List (Nat × Nat) :=
  [(0x09, 0x0D), (0x20, 0x20), (0x85, 0x85), (0xA0, 0xA0), (0x1680, 0x1680), (0x2000, 0x200A),
   (0x2028, 0x2029), (0x202F, 0x202F), (0x205F, 0x205F), (0x3000, 0x3000)]

def isBlank (c : Char) : Bool :=
  blankRanges.any fun r => r.1 ≤ c.toNat && c.toNat ≤ r.2

/-- A line is blank when every character of it is; the empty line is. -/
def isBlankLine (line : List Char) : Bool :=
  line.all isBlank

/-- The line without the blank characters at its end. -/
def trimEnd (line : List Char) : List Char :=
  (line.reverse.dropWhile isBlank).reverse

end EvaluatorGen.Text
