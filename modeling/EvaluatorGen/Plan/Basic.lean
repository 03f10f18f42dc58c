/-!
Plans: what one evaluator class consists of, before any of it is printed.

1. Leaf values are members of the class, with accessors.
2. Input and output bindings are the signature of the pipeline, immediate or recurrent.
3. Statements build the pipeline and refer to each other by name.
-/
namespace EvaluatorGen

/-- The element types of the generated code. -/
inductive ScalarType where
  | float
  | double
  | int8
  | int16
  deriving DecidableEq, Repr, Inhabited

/-- The number of index variables of a pointwise definition. -/
inductive IndexVars where
  | one
  | two
  deriving DecidableEq, Repr, Inhabited

/-! ### Leaf values -/

inductive LeafStorage where
  | plain
  /-- Integers of type `storage`, with a scale step of the source type. -/
  | quantized (storage : ScalarType) (reservedBits : UInt32)
  deriving DecidableEq, Repr, Inhabited

structure LeafValue where
  /-- The key of the leaf in the weight file. -/
  uid : String
  symbol : String
  /-- The element type that the setter takes. -/
  source : ScalarType
  storage : LeafStorage
  deriving DecidableEq, Repr

/-- The element type of the member that stores the leaf. -/
def LeafValue.storageType (v : LeafValue) : ScalarType :=
  match v.storage with
  | .plain => v.source
  | .quantized storage _ => storage

/-! ### Signature -/

/-- The history behind a recurrent input. -/
structure RecurrentSlot where
  /-- How many steps ago the value was written that the input reads. -/
  offset : UInt64
  /-- The extents of one buffer, the innermost first. -/
  dims : List UInt64
  deriving DecidableEq, Repr

/-- The number of buffers of the history: what is written now, and every step back to the
    offset. -/
def RecurrentSlot.length (s : RecurrentSlot) : Nat := s.offset.toNat + 1

structure InputBinding where
  name : String
  uid : String
  element : ScalarType
  recurrence : Option RecurrentSlot
  deriving DecidableEq, Repr

structure OutputBinding where
  name : String
  uid : String
  /-- The symbol of what is realized into this output. -/
  value : String
  element : ScalarType
  /-- The name of the recurrent input that this output is fed back to. -/
  feeds : Option String
  deriving DecidableEq, Repr

/-! ### Statements -/

/-- A function of the runtime library. -/
inductive Callee where
  | plus
  | minus
  | elementTimes
  | log
  | tanh
  | sigmoid (type : ScalarType)
  | vectorByMatrixTimes
  | vectorByMatrixTimesQuantized
  | slice
  | splice
  | quantize (source target : ScalarType)
  deriving DecidableEq, Repr, Inhabited

inductive Expr where
  | ref (name : String)
  | int (n : Int64)
  | call (callee : Callee) (args : List Expr)
  deriving Repr, Inhabited

mutual

/-- Equality of expressions, decided along their structure. -/
def Expr.decEq : (a b : Expr) → Decidable (a = b)
  | .ref a, .ref b =>
    if h : a = b then .isTrue (congrArg _ h) else .isFalse fun e => h (Expr.ref.inj e)
  | .int a, .int b =>
    if h : a = b then .isTrue (congrArg _ h) else .isFalse fun e => h (Expr.int.inj e)
  | .call f as, .call g bs =>
    if h : f = g then
      match Expr.decEqList as bs with
      | .isTrue h' => .isTrue (h ▸ h' ▸ rfl)
      | .isFalse h' => .isFalse fun e => h' (Expr.call.inj e).2
    else .isFalse fun e => h (Expr.call.inj e).1
  | .ref _, .int _ | .ref _, .call _ _ | .int _, .ref _ | .int _, .call _ _ | .call _ _, .ref _
  | .call _ _, .int _ => .isFalse nofun

def Expr.decEqList : (as bs : List Expr) → Decidable (as = bs)
  | [], [] => .isTrue rfl
  | [], _ :: _ | _ :: _, [] => .isFalse nofun
  | a :: as, b :: bs =>
    match Expr.decEq a b, Expr.decEqList as bs with
    | .isTrue h, .isTrue h' => .isTrue (h ▸ h' ▸ rfl)
    | .isFalse h, _ => .isFalse fun e => h (List.cons.inj e).1
    | _, .isFalse h => .isFalse fun e => h (List.cons.inj e).2

end

instance : DecidableEq Expr := Expr.decEq

/-- A size as an argument of a call: its 64 bits read as a signed number. -/
def Expr.ofSize (n : UInt64) : Expr := .int n.toInt64

inductive FuncDef where
  /-- The elements of a buffer. -/
  | indexed (vars : IndexVars) (buffer : String)
  /-- The value of a member. -/
  | scalar (memberName : String)
  | expr (value : Expr)
  deriving DecidableEq, Repr, Inhabited

inductive Stmt where
  /-- A typed view over a storage member. -/
  | bufferView (name : String) (element : ScalarType) (storage : String) (dims : List UInt64)
      (label : String)
  /-- A named stage. -/
  | func (name : String) (definition : FuncDef)
  /-- The two stages of a quantized leaf under one name. -/
  | funcPair (name view step : String)
  /-- The stages that one call gives. -/
  | funcGroup (name : String) (value : Expr)
  /-- Compute a stage once for all its consumers. -/
  | computeRoot (func : String)
  deriving DecidableEq, Repr, Inhabited

/-! ### Plans -/

structure Plan where
  enclosing : String
  className : String
  values : List LeafValue
  /-- Immediate inputs by name, then recurrent inputs by name. -/
  inputs : List InputBinding
  /-- Immediate outputs by name, then recurrent outputs by name. -/
  outputs : List OutputBinding
  body : List Stmt
  deriving DecidableEq, Repr

namespace Plan

def immediateInputs (p : Plan) : List InputBinding :=
  p.inputs.filter (·.recurrence.isNone)

/-- The recurrent inputs with their histories. -/
def recurrentInputs (p : Plan) : List (InputBinding × RecurrentSlot) :=
  p.inputs.filterMap fun i => i.recurrence.map (i, ·)

def immediateOutputs (p : Plan) : List OutputBinding :=
  p.outputs.filter (·.feeds.isNone)

def hasRecurrence (p : Plan) : Bool :=
  p.inputs.any (·.recurrence.isSome)

/-- The first input of a name. -/
def input? (p : Plan) (name : String) : Option InputBinding :=
  p.inputs.find? (·.name == name)

end Plan

end EvaluatorGen
