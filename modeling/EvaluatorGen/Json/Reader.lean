import EvaluatorGen.Json.Lexeme
import EvaluatorGen.Text.Utf8

/-!
Reading JSON text as a tree.

The reader keeps a stack of unfinished values, the innermost first. A token starts a value,
ends one, or divides two; an ended value is handed to the one around it. A token that cannot
stand where it does, or the end of the text, breaks off whatever is unfinished. Nesting is
not limited.
-/
namespace EvaluatorGen.Json

/-- An unfinished value, by what may follow. Items and members are kept with the last one
    first. -/
inductive Pending where
  /-- The document, of which nothing has been read. -/
  | document
  /-- The document is read. -/
  | read (v : Value)
  /-- Behind `[`: an item or the end. -/
  | firstItem
  /-- Behind a comma: an item. -/
  | nextItem (items : List Value)
  /-- Behind an item: a comma or the end. -/
  | afterItem (items : List Value)
  /-- Behind an opening brace: a key or the end. -/
  | firstKey
  /-- Behind a comma: a key. -/
  | nextKey (members : Members)
  /-- Behind a key: a colon. -/
  | afterKey (members : Members) (key : Option String)
  /-- Behind a colon: a value. -/
  | member (members : Members) (key : Option String)
  /-- Behind a value: a comma or the end. -/
  | afterMember (members : Members)
  deriving Inhabited

/-! ### Where a text breaks off -/

namespace Break

/-- The same fault for everyone. -/
def all (f : Fault) : Break := ⟨f, f, f⟩

/-- A token in place of a value. Only a string can be a name. -/
def atValue : Token → Break
  | .brokenText read skip => ⟨read, skip, read⟩
  | .brokenScalar read skip => ⟨read, skip, .malformed⟩
  | _ => all .malformed

/-- A token in place of a key, which is a string for everyone. -/
def atKey : Token → Break
  | .brokenText read skip => ⟨read, skip, read⟩
  | _ => all .malformed

end Break

/-- How the text breaks off at a token that cannot stand there. -/
def Pending.breakAt (p : Pending) (t : Token) : Break :=
  match p with
  | .document | .firstItem | .nextItem _ | .member _ _ => .atValue t
  | .firstKey | .nextKey _ => .atKey t
  | .read _ | .afterItem _ | .afterKey _ _ | .afterMember _ => .all .malformed

/-- The unfinished value, broken off. Behind a comma, one who takes the end has met the
    comma. -/
def Pending.cut (b : Break) : Pending → Value
  | .document => .broken b
  | .read v => v
  | .firstItem => .cutArray [] b
  | .nextItem items => .cutArray items.reverse { b with strict := .malformed }
  | .afterItem items => .cutArray items.reverse b
  | .firstKey => .cutObject [] b
  | .nextKey members => .cutObject members.reverse { b with strict := .malformed }
  | .afterKey members key | .member members key =>
    .cutObject ((key, .broken b) :: members).reverse b
  | .afterMember members => .cutObject members.reverse b

/-- What is unfinished: the innermost value and those around it. -/
structure Stack where
  top : Pending := .document
  rest : List Pending := []
  deriving Inhabited

namespace Stack

/-- A value may start here. -/
def awaitsValue (s : Stack) : Bool :=
  match s.top with
  | .document | .firstItem | .nextItem _ | .member _ _ => true
  | _ => false

/-- Hand a value to the innermost unfinished one. -/
def supply (v : Value) (s : Stack) : Option Stack :=
  match s.top with
  | .document => some { s with top := .read v }
  | .firstItem => some { s with top := .afterItem [v] }
  | .nextItem items => some { s with top := .afterItem (v :: items) }
  | .member members key => some { s with top := .afterMember ((key, v) :: members) }
  | _ => none

/-- Start a value inside the innermost one. -/
def push (p : Pending) (s : Stack) : Option Stack :=
  if s.awaitsValue then some ⟨p, s.top :: s.rest⟩ else none

/-- End the innermost value and hand it to the one around it. -/
def pop (v : Value) (s : Stack) : Option Stack :=
  match s.rest with
  | [] => none
  | p :: ps => supply v ⟨p, ps⟩

/-- The stack after one more token, if it can stand there. -/
def accept? (s : Stack) : Token → Option Stack
  | .openArray => s.push .firstItem
  | .openObject => s.push .firstKey
  | .closeArray =>
    match s.top with
    | .firstItem => s.pop (.array [])
    | .afterItem items => s.pop (.array items.reverse)
    | _ => none
  | .closeObject =>
    match s.top with
    | .firstKey => s.pop (.object [])
    | .afterMember members => s.pop (.object members.reverse)
    | _ => none
  | .comma =>
    match s.top with
    | .afterItem items => some { s with top := .nextItem items }
    | .afterMember members => some { s with top := .nextKey members }
    | _ => none
  | .colon =>
    match s.top with
    | .afterKey members key => some { s with top := .member members key }
    | _ => none
  | .text key =>
    match s.top with
    | .firstKey => some { s with top := .afterKey [] key }
    | .nextKey members => some { s with top := .afterKey members key }
    | _ => s.supply (key.elim .garbled .string)
  | .scalar v => s.supply v
  | .brokenText _ _ | .brokenScalar _ _ | .junk => none

/-- Close the values around a broken one. The document itself takes it as it is. -/
def close (b : Break) (v : Value) (outer : List Pending) : Value :=
  outer.foldl
    (fun inner p =>
      match supply inner ⟨p, []⟩ with
      | some s => s.top.cut b
      | none => inner)
    v

/-- The document of a text that breaks off here. -/
def breakOff (s : Stack) (b : Break) : Document :=
  { value := close b (s.top.cut b) s.rest, surplus := s.top matches .read _ }

/-- The document of a text that ends here. -/
def endOfText (s : Stack) : Document :=
  match s.top with
  | .read v => { value := v }
  | _ => s.breakOff (.all .truncated)

/-- The document of the tokens that follow. -/
def document (s : Stack) : List Token → Document
  | [] => s.endOfText
  | t :: ts =>
    match s.accept? t with
    | some s => s.document ts
    | none => s.breakOff (s.top.breakAt t)

end Stack

/-! ### Documents -/

/-- The document that some characters hold. -/
def readChars (text : List (Option Char)) : Document :=
  Stack.document {} (tokens text)

/-- The document that a text holds. -/
def read (text : String) : Document :=
  readChars (text.toList.map some)

/-- The document that some bytes hold. -/
def readBytes (bytes : List UInt8) : Document :=
  readChars (Text.charsOfBytes bytes)

/-- What is read from a document. Nothing may follow it. -/
def Document.decode {α : Type} (d : Document) (item : Value → Except Fault α) :
    Except Fault α := do
  let a ← item d.value
  if d.surplus then .error .malformed
  return a

end EvaluatorGen.Json
