import EvaluatorGen.Json.Lexeme
import EvaluatorGen.Json.Quoted

/-!
Trees written as JSON text, without blanks.

A tree is a list of tokens, and a token has one spelling. How a double precision number is spelled is
left open. A tree that is broken off has no text: where it breaks, nothing is written.
-/
namespace EvaluatorGen.Json

/-- Parts with commas between them and a token at the end. -/
def separated (close : Token) : List (List Token) → List Token
  | [] => [close]
  | [part] => part ++ [close]
  | part :: parts => part ++ .comma :: separated close parts

namespace Value

mutual

/-- The tokens of a value. -/
def tokens : Value → List Token
  | .string s => [.text (some s)]
  | .array items => .openArray :: separated .closeArray (itemTokens items)
  | .object members => .openObject :: separated .closeObject (memberTokens members)
  | .garbled => [.text none]
  | .broken _ | .cutArray _ _ | .cutObject _ _ => [.junk]
  | v => [.scalar v]

/-- The tokens of each item of an array. -/
def itemTokens : List Value → List (List Token)
  | [] => []
  | v :: vs => tokens v :: itemTokens vs

/-- The tokens of each member of an object. -/
def memberTokens : List (Option String × Value) → List (List Token)
  | [] => []
  | (key, v) :: ms => (.text key :: .colon :: tokens v) :: memberTokens ms

end

end Value

/-- The characters of a number or a word. -/
def scalarChars (float : Binary64 → String) : Value → List Char
  | .null => ['n', 'u', 'l', 'l']
  | .bool true => ['t', 'r', 'u', 'e']
  | .bool false => ['f', 'a', 'l', 's', 'e']
  | .int n => n.repr.toList
  | .float x => (float x).toList
  | _ => []

/-- The characters of a token. -/
def Token.chars (float : Binary64 → String) : Token → List Char
  | .openArray => ['[']
  | .closeArray => [']']
  | .openObject => ['\x7b']
  | .closeObject => ['\x7d']
  | .comma => [',']
  | .colon => [':']
  | .text (some s) => (quote s).toList
  | .scalar v => scalarChars float v
  | .text none | .brokenText _ _ | .brokenScalar _ _ | .junk => []

/-- The characters of some tokens. -/
def spell (float : Binary64 → String) (ts : List Token) : List Char :=
  ts.flatMap (Token.chars float)

/-- The text of a value. -/
def Value.write (float : Binary64 → String) (v : Value) : String :=
  String.ofList (spell float v.tokens)

end EvaluatorGen.Json
