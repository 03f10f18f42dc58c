import EvaluatorGen.Json.Numeral
import EvaluatorGen.Json.Units

/-!
Tokens of JSON text, read one character at a time.

`Lexeme` is the token being read. Each character extends it or ends it, and an ended token
comes out; only a number is ended by the character that follows it, so one character gives
at most two tokens. Outside strings, space, tab, newline and carriage return divide tokens.

What is no token is one as well: `brokenText` and `brokenScalar` for a string, number or word
that goes wrong, `junk` for a character that starts none. Reading ends there.
-/
namespace EvaluatorGen.Json

inductive Token where
  | openArray
  | closeArray
  | openObject
  | closeObject
  | comma
  | colon
  /-- A string; none if it is not Unicode text. -/
  | text (s : Option String)
  /-- A number, `true`, `false` or `null`. -/
  | scalar (v : Value)
  /-- A string that goes wrong, for one who reads it and for one who skips it. -/
  | brokenText (read skip : Fault)
  /-- A number or a word that goes wrong, for one who reads it and for one who skips it. -/
  | brokenScalar (read skip : Fault)
  | junk
  deriving Inhabited

/-- The token being read. The units of a string are kept with the last one first. -/
inductive Lexeme where
  | gap
  /-- A word of which these letters are still to come. -/
  | word (rest : List Char) (v : Value)
  | numeral (n : Numeral)
  | string (units : List Nat)
  /-- Behind a backslash. -/
  | escape (units : List Nat)
  /-- Behind `\u`, with the characters seen since, the last one first. -/
  | hex (units : List Nat) (seen : List (Option Char))
  deriving Inhabited

/-- The tokens that a character ends, and the one that goes on behind it, if reading does. -/
structure LexStep where
  tokens : List Token
  next : Option Lexeme
  deriving Inhabited

namespace Lexeme

def goOn (next : Lexeme) : LexStep := ⟨[], some next⟩

/-- One complete token. -/
def emit (token : Token) : LexStep := ⟨[token], some .gap⟩

/-- A token that ends the reading. -/
def halt (token : Token) : LexStep := ⟨[token], none⟩

/-- A string that goes wrong at a character. -/
def badText : Token := .brokenText .malformed .malformed

/-- A number or a word that goes wrong at a character. -/
def badScalar : Token := .brokenScalar .malformed .malformed

/-- A character between tokens. -/
def start (c : Char) : LexStep :=
  match c with
  | ' ' | '\t' | '\n' | '\r' => goOn .gap
  | '[' => emit .openArray
  | ']' => emit .closeArray
  | '\x7b' => emit .openObject
  | '\x7d' => emit .closeObject
  | ',' => emit .comma
  | ':' => emit .colon
  | '"' => goOn (.string [])
  | 't' => goOn (.word ['r', 'u', 'e'] (.bool true))
  | 'f' => goOn (.word ['a', 'l', 's', 'e'] (.bool false))
  | 'n' => goOn (.word ['u', 'l', 'l'] .null)
  | c =>
    match Numeral.start? c with
    | some n => goOn (.numeral n)
    | none => halt .junk

/-- The character that a backslash and `c` stand for, `u` apart. -/
def simpleEscape? : Char → Option Char
  | '"' => some '"'
  | '\\' => some '\\'
  | '/' => some '/'
  | 'b' => some '\x08'
  | 'f' => some '\x0c'
  | 'n' => some '\n'
  | 'r' => some '\r'
  | 't' => some '\t'
  | _ => none

/-- A character of a word. -/
def stepWord (rest : List Char) (v : Value) (c : Char) : LexStep :=
  match rest with
  | [] => halt badScalar
  | [d] => if c = d then emit (.scalar v) else halt badScalar
  | d :: ds => if c = d then goOn (.word ds v) else halt badScalar

/-- A character behind a numeral, which extends it, goes wrong in it, or ends it. A digit
    behind a leading zero is wrong. -/
def stepNumeral (n : Numeral) (c : Char) : LexStep :=
  match n.extend? c with
  | some n => goOn (.numeral n)
  | none =>
    if n.isComplete && !(n.part == .zero && c.isDigit) then
      let s := start c
      ⟨.scalar n.value :: s.tokens, s.next⟩
    else halt badScalar

/-- A character inside a string. -/
def stepString (units : List Nat) (c : Char) : LexStep :=
  if c = '"' then emit (.text (textOfUnits? units.reverse))
  else if c = '\\' then goOn (.escape units)
  else if c.toNat < 0x20 then halt badText
  else goOn (.string (c.toNat :: units))

/-- A character behind a backslash. -/
def stepEscape (units : List Nat) (c : Char) : LexStep :=
  if c = 'u' then goOn (.hex units [])
  else match simpleEscape? c with
    | some d => goOn (.string (d.toNat :: units))
    | none => halt badText

/-- The number of bytes of a character; a stray byte is one. -/
def byteCount (c : Option Char) : Nat := c.elim 1 Char.utf8Size

/-- An escape has four digits, counted in bytes, and is judged when they are there. -/
def stepHex (units : List Nat) (seen : List (Option Char)) : LexStep :=
  if seen.foldl (fun size c => size + byteCount c) 0 < 4 then goOn (.hex units seen)
  else match (seen.reverse.mapM id).bind hexUnit? with
    | some u => goOn (.string (u :: units))
    | none => halt badText

/-- A stray byte. It is part of a string until the string ends. -/
def stepStray : Lexeme → LexStep
  | .gap => halt .junk
  | .word _ _ => halt badScalar
  | .numeral n =>
    if n.isComplete then ⟨[.scalar n.value, .junk], none⟩ else halt badScalar
  | .string units => goOn (.string (strayUnit :: units))
  | .escape _ => halt badText
  | .hex units seen => stepHex units (none :: seen)

/-- The token after one more character, and the tokens that this character ends. -/
def step (lexeme : Lexeme) : Option Char → LexStep
  | none => lexeme.stepStray
  | some c =>
    match lexeme with
    | .gap => start c
    | .word rest v => stepWord rest v c
    | .numeral n => stepNumeral n c
    | .string units => stepString units c
    | .escape units => stepEscape units c
    | .hex units seen => stepHex units (some c :: seen)

/-- A string that the text ends in. One who reads it has noticed a lone surrogate before. -/
def cutText (units : List Nat) : Token :=
  .brokenText (if hasLoneSurrogate units.reverse then .malformed else .truncated) .truncated

/-- A number that the text ends in. One who skips it looks for a digit only, so the end of the
    text is wrong there like any other character. -/
def cutNumeral (n : Numeral) : Token :=
  if n.isComplete then .scalar n.value else .brokenScalar .truncated .malformed

/-- The tokens that the end of the text ends. -/
def finish : Lexeme → List Token
  | .gap => []
  | .word _ _ => [.brokenScalar .truncated .truncated]
  | .numeral n => [cutNumeral n]
  | .string units | .escape units | .hex units _ => [cutText units]

end Lexeme

/-- The tokens of a text that goes on behind a lexeme. -/
def tokensFrom (lexeme : Lexeme) : List (Option Char) → List Token
  | [] => lexeme.finish
  | c :: cs =>
    match lexeme.step c with
    | ⟨tokens, some next⟩ => tokens ++ tokensFrom next cs
    | ⟨tokens, none⟩ => tokens

/-- The tokens of a text, up to where it goes wrong. -/
def tokens (text : List (Option Char)) : List Token :=
  tokensFrom .gap text

end EvaluatorGen.Json
