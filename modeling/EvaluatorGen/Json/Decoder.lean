import EvaluatorGen.Json.Value

/-!
Decoders: from a JSON tree to a value of a chosen form.

A decoder takes the parts of a value in the order of the text and fails at the first that is
wrong. An array or object where something else is asked for is `unexpected` as soon as it
starts. A number, string or word is read to its end first, so it is `malformed` or
`truncated` if that fails.
-/
namespace EvaluatorGen.Json

/-- Where a tree comes from. Text is refused as malformed as soon as it cannot be continued to
    the form asked for, where a tree that is already there is merely unexpected. -/
inductive Origin where
  | text
  | tree
  deriving DecidableEq, Repr

/-- The fault of a document that goes on behind the place where its form ends. -/
def Origin.surplus : Origin → Fault
  | .text => .malformed
  | .tree => .unexpected

namespace Value

/-- The fault of a value that is not of the form asked for. -/
def misfit : Value → Fault
  | .garbled => .malformed
  | .float x => if x.isFinite then .unexpected else .malformed
  | .broken b => b.read
  | _ => .unexpected

def asNull : Value → Except Fault Unit
  | .null => .ok ()
  | v => .error v.misfit

def asString : Value → Except Fault String
  | .string s => .ok s
  | v => .error v.misfit

/-- A whole number below `bound`. -/
def asNatBelow (bound : Nat) : Value → Except Fault Nat
  | .int n => if 0 ≤ n ∧ n < bound then .ok n.toNat else .error .unexpected
  | v => .error v.misfit

def asUInt64 (v : Value) : Except Fault UInt64 :=
  UInt64.ofNat <$> v.asNatBelow UInt64.size

def asUInt32 (v : Value) : Except Fault UInt32 :=
  UInt32.ofNat <$> v.asNatBelow UInt32.size

/-- A whole number that is the value of a signed word. -/
def asInt64 : Value → Except Fault Int64
  | .int n =>
    if (Int64.ofInt n).toInt = n then .ok (Int64.ofInt n) else .error .unexpected
  | v => .error v.misfit

/-- A number; an integer is rounded to double precision. -/
def asBinary64 : Value → Except Fault Binary64
  | .int n => .ok (Binary64.ofDecimal (decide (n < 0)) n.natAbs 0)
  | .float x => if x.isFinite then .ok x else .error .malformed
  | v => .error v.misfit

def asList {α : Type} (item : Value → Except Fault α) : Value → Except Fault (List α)
  | .array items => items.mapM item
  | .cutArray items b => do
    let _ ← items.mapM item
    .error b.read
  | v => .error v.misfit

/-- `null` is an absent value. -/
def asOption {α : Type} (item : Value → Except Fault α) : Value → Except Fault (Option α)
  | .null => .ok none
  | v => some <$> item v

/-- Take the members of an object in order. A key must be a text. -/
def foldMembers {α : Type} (step : α → String → Value → Except Fault α) (a : α) :
    Value → Except Fault α
  | .object members => members.foldlM take a
  | .cutObject members b => do
    let _ ← members.foldlM take a
    .error b.read
  | v => .error v.misfit
where
  take (a : α) (member : Option String × Value) : Except Fault α :=
    match member.1 with
    | some key => step a key member.2
    | none => .error .malformed

/-! ### Values that are not decoded -/

/-- Skip a value, whatever it holds. -/
def skip : Value → Except Fault Unit
  | .broken b | .cutArray _ b | .cutObject _ b => .error b.skip
  | _ => .ok ()

mutual

/-- Read a value of any form, nested at most `depth` deep. -/
def keep (depth : Nat) : Value → Except Fault Unit
  | .float x => if x.isFinite then .ok () else .error .malformed
  | .garbled => .error .malformed
  | .broken b => .error b.read
  | .array items =>
    if depth = 0 then .error .malformed else keepItems (depth - 1) items
  | .object members =>
    if depth = 0 then .error .malformed else keepMembers (depth - 1) members
  | .cutArray items b => do
    if depth = 0 then .error .malformed else keepItems (depth - 1) items
    .error b.read
  | .cutObject members b => do
    if depth = 0 then .error .malformed else keepMembers (depth - 1) members
    .error b.read
  | .null | .bool _ | .int _ | .string _ => .ok ()

def keepItems (depth : Nat) : List Value → Except Fault Unit
  | [] => .ok ()
  | v :: vs => do
    keep depth v
    keepItems depth vs

def keepMembers (depth : Nat) : Members → Except Fault Unit
  | [] => .ok ()
  | (key, v) :: ms => do
    if key.isNone then .error .malformed
    keep depth v
    keepMembers depth ms

end

end Value

/-- A field that is decoded where its key occurs, which it may do once. -/
def once {α : Type} (slot : Option α) (item : Value → Except Fault α) (v : Value) :
    Except Fault (Option α) :=
  match slot with
  | some _ => .error .unexpected
  | none => some <$> item v

namespace Members

/-- The value of a key; a repeated key is unexpected. -/
def field? (members : Members) (key : String) : Except Fault (Option Value) :=
  match members.filter (fun m => m.1 == some key) with
  | [] => .ok none
  | [m] => .ok (some m.2)
  | _ => .error .unexpected

/-- The decoded value of a key that must be there. -/
def required {α : Type} (members : Members) (key : String) (item : Value → Except Fault α) :
    Except Fault α := do
  match ← members.field? key with
  | some v => item v
  | none => .error .unexpected

/-- The decoded value of a key, or `absent` where the key is missing. -/
def optional {α : Type} (members : Members) (key : String) (item : Value → Except Fault α)
    (absent : α) : Except Fault α := do
  match ← members.field? key with
  | some v => item v
  | none => .ok absent

end Members

end EvaluatorGen.Json
