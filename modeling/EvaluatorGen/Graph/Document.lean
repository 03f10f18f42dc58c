import EvaluatorGen.Graph.Basic
import EvaluatorGen.Json.Decoder
import EvaluatorGen.Json.Reader
import EvaluatorGen.Json.Writer

/-!
Graphs as JSON documents.

A graph is an object with a list `nodes`, or an array that holds this list. A node is an
object with one member per field. Optional fields may be missing, and most of them may be
`null`; records may be given by position. `Graph.toJson` writes every field that is present
under its own key, and `Graph.ofJson` reads a document back.

Members are taken in the order of the document. Those that a node does not know are kept
until its kind is known, so in a text they must be readable and are limited in depth. Those
that a graph or a quantization does not know are skipped whatever they hold.
-/
namespace EvaluatorGen

open Json (Value Fault Origin Members)

/-! ### Reading -/

namespace ElementType

def ofText? : String → Option ElementType
  | "f32" => some .f32
  | "f64" => some .f64
  | "f16" => some .f16
  | "i32" => some .i32
  | _ => none

/-- The element type of a name. -/
def ofName (s : String) : Except Fault ElementType :=
  (ofText? s).elim (.error .unexpected) .ok

/-- An element type that is the only member of an object, with `null` for its value. -/
def ofMembers (members : Members) (ending : Except Fault Unit) (surplus : Fault) :
    Except Fault ElementType :=
  match members with
  | [] => .error surplus
  | (none, _) :: _ => .error .malformed
  | (some s, v) :: rest => do
    let type ← ofName s
    v.asNull
    if !rest.isEmpty then .error surplus
    ending
    return type

/-- An element type is its name, or an object whose only member is the name with `null`. A
    text is refused at the first character that starts neither. -/
def ofJson (origin : Origin) : Value → Except Fault ElementType
  | .string s => ofName s
  | .garbled => .error .malformed
  | .broken b => .error b.strict
  | .object members => ofMembers members (.ok ()) origin.surplus
  | .cutObject [] b => .error b.strict
  | .cutObject members b => ofMembers members (.error b.strict) .malformed
  | _ => .error origin.surplus

def toText : ElementType → String
  | .f32 => "f32"
  | .f64 => "f64"
  | .f16 => "f16"
  | .i32 => "i32"

end ElementType

namespace Quantization

/-- The fields of a quantization that have been read. -/
structure Fields where
  bits : Option UInt32 := none
  reservedBits : Option UInt32 := none

/-- Take one member of a quantization. -/
def Fields.take (f : Fields) (key : String) (v : Value) : Except Fault Fields :=
  match key with
  | "bits" => return { f with bits := ← Json.once f.bits Value.asUInt32 v }
  | "reserved_bits" =>
    return { f with reservedBits := ← Json.once f.reservedBits Value.asUInt32 v }
  | _ => do
    v.skip
    return f

/-- The bits are required, the reserved bits are zero if they are missing. -/
def Fields.finish (f : Fields) : Except Fault Quantization :=
  match f.bits with
  | some bits => .ok ⟨bits, f.reservedBits.getD 0⟩
  | none => .error .unexpected

/-- The fields by position, and how the list goes on behind them. -/
def ofItems (items : List Value) (next ending : Except Fault Unit) (surplus : Fault) :
    Except Fault Quantization :=
  match items with
  | [] => do
    next
    .error .unexpected
  | [bits] => do
    let bits ← bits.asUInt32
    next
    return ⟨bits, 0⟩
  | bits :: reservedBits :: rest => do
    let bits ← bits.asUInt32
    let reservedBits ← reservedBits.asUInt32
    if !rest.isEmpty then .error surplus
    ending
    return ⟨bits, reservedBits⟩

/-- A quantization is an object, or a list of its fields; the reserved bits may be left out. -/
def ofJson (origin : Origin) : Value → Except Fault Quantization
  | .array items => ofItems items (.ok ()) (.ok ()) origin.surplus
  | .cutArray items b => ofItems items (.error b.read) (.error b.strict) origin.surplus
  | v => do
    (← v.foldMembers Fields.take {}).finish

def toJson (q : Quantization) : Value :=
  .ofMembers [("bits", .int q.bits.toNat), ("reserved_bits", .int q.reservedBits.toNat)]

end Quantization

namespace Attributes

/-- Attributes are an object, or a list of up to three fields. -/
def ofJson : Value → Except Fault Attributes
  | .object members => do
    let field key := Members.optional members key (Value.asOption Value.asInt64) none
    return ⟨← field "begin_index", ← field "end_index", ← field "slice_strides"⟩
  | .array items => do
    match ← items.mapM (Value.asOption Value.asInt64) with
    | [] => return {}
    | [b] => return { beginIndex := b }
    | [b, e] => return { beginIndex := b, endIndex := e }
    | [b, e, s] => return ⟨b, e, s⟩
    | _ => .error .unexpected
  | v => .error v.misfit

/-- The members of the attributes that are present. -/
def toMembers (a : Attributes) : List (String × Value) :=
  let member key (x : Option Int64) := x.toList.map fun i => (key, Value.int i.toInt)
  member "begin_index" a.beginIndex ++ member "end_index" a.endIndex ++
    member "slice_strides" a.stride

end Attributes

namespace NodeKind

/-- The kinds of node, by the name or the number that stands for them in a document. -/
inductive Tag where
  | parameter
  | constant
  | input
  | output
  | operator
  | quantizeMarker
  deriving DecidableEq, Repr

def Tag.ofText? : String → Option Tag
  | "parameter" => some .parameter
  | "constant" => some .constant
  | "input" => some .input
  | "output" => some .output
  | "operator" => some .operator
  | "quantize_marker" => some .quantizeMarker
  | _ => none

def Tag.ofNumber? : Int → Option Tag
  | 0 => some .parameter
  | 1 => some .constant
  | 2 => some .input
  | 3 => some .output
  | 4 => some .operator
  | 5 => some .quantizeMarker
  | _ => none

def Tag.ofJson : Value → Except Fault Tag
  | .string s => (ofText? s).elim (.error .unexpected) .ok
  | .int n => (ofNumber? n).elim (.error .unexpected) .ok
  | v => .error v.misfit

/-- The kind of a node from its members; only an operator has members of its own. -/
def ofMembers (members : Members) : Except Fault NodeKind := do
  match ← members.required "type" Tag.ofJson with
  | .parameter => return .parameter
  | .constant => return .constant
  | .input => return .input
  | .output => return .output
  | .quantizeMarker => return .quantizeMarker
  | .operator =>
    let name ← members.required "op_name" Value.asString
    let attributes ← members.optional "attributes" Attributes.ofJson {}
    return .operator name attributes

def toMembers : NodeKind → List (String × Value)
  | .parameter => [("type", .string "parameter")]
  | .constant => [("type", .string "constant")]
  | .input => [("type", .string "input")]
  | .output => [("type", .string "output")]
  | .operator name attributes =>
    [("type", .string "operator"), ("op_name", .string name),
     ("attributes", .ofMembers attributes.toMembers)]
  | .quantizeMarker => [("type", .string "quantize_marker")]

end NodeKind

namespace Node

/-- In a text a document is at most 127 arrays and objects deep, and a node is the third. -/
def maxMemberDepth : Nat := 124

/-- The fields of a node that have been read, and the members that are none of them. -/
structure Fields where
  uid : Option String := none
  name : Option (Option String) := none
  shape : Option (List UInt64) := none
  elementType : Option ElementType := none
  quantization : Option (Option Quantization) := none
  recurrenceOffset : Option (Option UInt64) := none
  operands : Option (List UInt64) := none
  value : Option (Option (List Binary64)) := none
  others : Members := []

namespace Fields

open Json (once)

/-- Keep a member that may belong to the kind of the node. -/
def keep (f : Fields) (origin : Origin) (key : String) (v : Value) : Except Fault Fields := do
  if origin = .text then v.keep maxMemberDepth
  return { f with others := f.others ++ [(some key, v)] }

/-- Take one member of a node. -/
def take (origin : Origin) (f : Fields) (key : String) (v : Value) : Except Fault Fields :=
  match key with
  | "uid" => return { f with uid := ← once f.uid Value.asString v }
  | "name" => return { f with name := ← once f.name (Value.asOption Value.asString) v }
  | "shape" => return { f with shape := ← once f.shape (Value.asList Value.asUInt64) v }
  | "dtype" =>
    return { f with elementType := ← once f.elementType (ElementType.ofJson origin) v }
  | "quantized" =>
    let item := Value.asOption (Quantization.ofJson origin)
    return { f with quantization := ← once f.quantization item v }
  | "recurrence_offset" =>
    let item := Value.asOption Value.asUInt64
    return { f with recurrenceOffset := ← once f.recurrenceOffset item v }
  | "operands" =>
    return { f with operands := ← once f.operands (Value.asList Value.asUInt64) v }
  | "value" =>
    let item := Value.asOption (Value.asList Value.asBinary64)
    return { f with value := ← once f.value item v }
  | _ => f.keep origin key v

/-- The node that the fields make up. Only its uid and its kind must be there. -/
def finish (f : Fields) : Except Fault Node := do
  let some uid := f.uid | .error .unexpected
  let kind ← NodeKind.ofMembers f.others
  return {
    uid
    name := f.name.getD none
    kind
    shape := f.shape.getD []
    elementType := f.elementType.getD .f32
    quantization := f.quantization.getD none
    recurrenceOffset := f.recurrenceOffset.getD none
    operands := f.operands.getD []
    value := f.value.getD none }

end Fields

def ofJson (origin : Origin) (v : Value) : Except Fault Node := do
  (← v.foldMembers (Fields.take origin) {}).finish

end Node

namespace Graph

def nodesOfJson (origin : Origin) (v : Value) : Except Fault Graph :=
  Graph.mk <$> Value.asList (Node.ofJson origin) v

/-- Take one member of a graph. -/
def takeMember (origin : Origin) (nodes : Option Graph) (key : String) (v : Value) :
    Except Fault (Option Graph) :=
  match key with
  | "nodes" => Json.once nodes (nodesOfJson origin) v
  | _ => do
    v.skip
    return nodes

/-- A graph by position: the list of its nodes, and how the document goes on behind it. -/
def ofItems (origin : Origin) (items : List Value) (next ending : Except Fault Unit) :
    Except Fault Graph :=
  match items with
  | [] => do
    next
    .error .unexpected
  | nodes :: rest => do
    let g ← nodesOfJson origin nodes
    if !rest.isEmpty then .error origin.surplus
    ending
    return g

def ofJson (origin : Origin) : Value → Except Fault Graph
  | .array items => ofItems origin items (.ok ()) (.ok ())
  | .cutArray items b => ofItems origin items (.error b.read) (.error b.strict)
  | v => do
    match ← v.foldMembers (takeMember origin) none with
    | some g => .ok g
    | none => .error .unexpected

end Graph

/-! ### Writing -/

namespace Node

/-- A member that is written only if it is present. -/
def present {α : Type} (key : String) (toJson : α → Value) (x : Option α) :
    List (String × Value) :=
  x.toList.map fun a => (key, toJson a)

def wordList (xs : List UInt64) : Value :=
  .array (xs.map fun x => .int x.toNat)

def toJson (n : Node) : Value :=
  .ofMembers <|
    [("uid", .string n.uid)] ++ present "name" .string n.name ++ n.kind.toMembers ++
    [("shape", wordList n.shape), ("dtype", .string n.elementType.toText)] ++
    present "quantized" Quantization.toJson n.quantization ++
    present "recurrence_offset" (fun x => .int x.toNat) n.recurrenceOffset ++
    [("operands", wordList n.operands)] ++
    present "value" (fun xs => .array (xs.map .float)) n.value

end Node

def Graph.toJson (g : Graph) : Value :=
  .ofMembers [("nodes", .array (g.nodes.map Node.toJson))]

/-- The text of a graph, without blanks. -/
def Graph.write (float : Binary64 → String) (g : Graph) : String := g.toJson.write float

/-- The graph that a text describes. -/
def Graph.read (text : String) : Except Fault Graph :=
  (Json.read text).decode (Graph.ofJson .text)

end EvaluatorGen
