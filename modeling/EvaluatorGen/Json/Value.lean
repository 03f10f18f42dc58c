import EvaluatorGen.Binary64.Rounding

/-!
JSON documents as trees, and what can be wrong with one.

Members of an object stand in the order of the text and may repeat a key. A number is an
integer if it is written without fraction and exponent and fits in 64 bits, and a double
precision number otherwise; `-0` is negative zero.

A text that is not JSON has a tree as well, up to the place where it breaks off. What is read
from a document is read in the order of the text, so a value of the wrong form is noticed if
it stands before that place, and the break otherwise.

Two things are well formed as text and still have no value: a number too large for double
precision, which is read as infinity, and a string that is not Unicode text. They matter only
where their value is asked for.
-/
namespace EvaluatorGen.Json

/-- Why a document is refused. -/
inductive Fault where
  /-- The text ends too early. -/
  | truncated
  /-- The text is not JSON. -/
  | malformed
  /-- The document is JSON of another form than the one asked for. -/
  | unexpected
  deriving DecidableEq, Repr, Inhabited

/-- A place where the text breaks off. The fault depends on who comes there. -/
structure Break where
  /-- For a reader that takes the next value or key. -/
  read : Fault
  /-- For a reader that skips what stands here. -/
  skip : Fault
  /-- For a reader that takes nothing here but a name or the end. -/
  strict : Fault
  deriving DecidableEq, Repr, Inhabited

inductive Value where
  | null
  | bool (b : Bool)
  | int (n : Int)
  | float (x : Binary64)
  | string (s : String)
  /-- A string that is not Unicode text. -/
  | garbled
  | array (items : List Value)
  /-- An object; a key is none if it is not Unicode text. -/
  | object (members : List (Option String × Value))
  /-- A text that breaks off before a value is complete. -/
  | broken (place : Break)
  /-- An array that breaks off behind some items, the last of which may be unfinished. -/
  | cutArray (items : List Value) (place : Break)
  /-- An object that breaks off behind some members, the last of which may be unfinished. -/
  | cutObject (members : List (Option String × Value)) (place : Break)
  deriving Inhabited

/-- The members of an object. -/
abbrev Members := List (Option String × Value)

/-- An object whose keys are texts. -/
def Value.ofMembers (members : List (String × Value)) : Value :=
  .object (members.map fun m => (some m.1, m.2))

/-- A tree, and whether the text goes on behind it. -/
structure Document where
  value : Value
  surplus : Bool := false
  deriving Inhabited

end EvaluatorGen.Json
