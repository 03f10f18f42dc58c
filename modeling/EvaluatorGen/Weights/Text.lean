import EvaluatorGen.Json.Decoder
import EvaluatorGen.Json.Quoted
import EvaluatorGen.Json.Reader
import EvaluatorGen.Weights.Basic

/-!
Weight stores as text: a JSON object with one line per entry, values with nine decimal
places.

An entry is written when all its values are known to be finite, so a value that is not finite
leaves the entries before it written. A writer of limited room fails when it is full.
-/
namespace EvaluatorGen.Weights

/-! ### Writing -/

/-- The index of the first value that is not finite. -/
def nonFinite? (values : List Binary64) : Option Nat :=
  values.findIdx? (!·.isFinite)

/-- The line of an entry; all but the last end with a comma. -/
def lineText (e : WeightEntry) (last : Bool) : String :=
  "    " ++ Json.quote e.uid ++ ": [" ++ ", ".intercalate (e.values.map Binary64.toFixed) ++ "]" ++
    (if last then "" else ",") ++ "\n"

section

variable {m : Type → Type} [Monad m] [MonadExceptOf WeightError m]

def writeEntry (put : String → m Unit) (e : WeightEntry) (last : Bool) : m Unit :=
  match nonFinite? e.values with
  | some index => throw (.nonFinite e.uid index)
  | none => put (lineText e last)

def writeEntries (put : String → m Unit) : List WeightEntry → m Unit
  | [] => pure ()
  | e :: es => do
    writeEntry put e es.isEmpty
    writeEntries put es

/-- Write a store through `put`. -/
def write (put : String → m Unit) (w : Weights) : m Unit := do
  put "\x7b\n"
  writeEntries put w.entries
  put "\x7d\n"

end

/-- A computation that may fail with a `WeightError` and keeps what it has written. -/
abbrev Writing (σ : Type) := ExceptT WeightError (StateM σ)

def appendText (text : String) : Writing String Unit :=
  modify (· ++ text)

/-- What is written of a store where there is room for all of it, and how it ends. -/
def toText (w : Weights) : Except WeightError Unit × String :=
  (write appendText w).run.run ""

/-- A writer with room for a number of bytes. -/
structure Sink where
  room : Nat
  written : List UInt8 := []
  deriving DecidableEq, Repr

def utf8 (text : String) : List UInt8 := text.toUTF8.data.toList

/-- Write as much of a text as there is room for. -/
def Sink.put (text : String) : Writing Sink Unit := do
  let sink ← get
  let bytes := utf8 text
  set (Sink.mk (sink.room - bytes.length) (sink.written ++ bytes.take sink.room))
  if sink.room < bytes.length then throw .noRoom

/-- The bytes that are written of a store where there is room for `room` of them, and how it
    ends. -/
def toBytes (w : Weights) (room : Nat) : Except WeightError Unit × List UInt8 :=
  let (result, sink) := (write Sink.put w).run.run ⟨room, []⟩
  (result, sink.written)

/-! ### Reading -/

/-- A store is an object of lists of numbers; of a repeated key the last counts. -/
def ofJson (v : Json.Value) : Except Json.Fault Weights :=
  v.foldMembers
    (fun w uid values => return w.insert uid (← values.asList Json.Value.asBinary64)) empty

/-- The store that a text holds. -/
def read (text : String) : Except Json.Fault Weights :=
  (Json.read text).decode ofJson

/-- The store that some bytes hold. -/
def readBytes (bytes : List UInt8) : Except Json.Fault Weights :=
  (Json.readBytes bytes).decode ofJson

end EvaluatorGen.Weights
