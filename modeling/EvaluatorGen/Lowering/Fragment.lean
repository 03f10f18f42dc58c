import EvaluatorGen.Identifier
import EvaluatorGen.Lowering.Operation
import EvaluatorGen.Lowering.Shape

/-!
What one node contributes to a plan.

`Scope` is what lowering knows of the nodes before the current one. A rule looks operands up
in it and gives a `Fragment`: the node's symbol, the identifiers that it claims in order, and
what is appended to the plan. A rule fails at the first of its conditions that the node
violates; that the claimed identifiers are free is asked last, by the walk.
-/
namespace EvaluatorGen

/-- A node that has been lowered, with its symbol. Outputs have none. -/
structure Lowered where
  node : Node
  symbol : Option String
  deriving DecidableEq, Repr

/-- What the rules see: the nodes lowered so far, by position, and the signature. -/
structure Scope where
  lowered : List Lowered := []
  inputs : List InputBinding := []
  outputs : List OutputBinding := []
  deriving DecidableEq, Repr

/-- The contribution of one node. -/
structure Fragment where
  symbol : Option String := none
  claims : List String := []
  values : List LeafValue := []
  inputs : List InputBinding := []
  outputs : List OutputBinding := []
  body : List Stmt := []
  deriving DecidableEq, Repr

namespace Scope

/-- The node at an operand's position and its symbol. The operand must stand before the node
    that names it, and must not be an output. -/
def operand (s : Scope) (n : Node) (id : UInt64) : Except CompileError (Node × String) :=
  match s.lowered[id.toNat]? with
  | some ⟨operand, some symbol⟩ => .ok (operand, symbol)
  | _ => .error (.operandNotLowered n.uid id)

end Scope

namespace Fragment

/-! ### Leaves -/

/-- The identifiers of a leaf: its symbol, and one for each member, accessor and stage. -/
def leafClaims (symbol : String) (quantized : Bool) : List String :=
  [symbol, Identifier.buffer symbol, Identifier.storage symbol, Identifier.getter symbol,
   Identifier.setter symbol] ++
  if quantized then
    [Identifier.viewStage symbol, Identifier.stepStage symbol, Identifier.step symbol]
  else []

/-- The statements of a leaf. A quantized one is the pair of its integers and its scale. -/
def leafBody (symbol : String) (element : ScalarType) (dims : List UInt64) (vars : IndexVars)
    (quantized : Bool) : List Stmt :=
  .bufferView (Identifier.buffer symbol) element (Identifier.storage symbol) dims symbol ::
  if quantized then
    [.func (Identifier.viewStage symbol) (.indexed vars (Identifier.buffer symbol)),
     .func (Identifier.stepStage symbol) (.scalar (Identifier.step symbol)),
     .funcPair symbol (Identifier.viewStage symbol) (Identifier.stepStage symbol)]
  else [.func symbol (.indexed vars (Identifier.buffer symbol))]

def ofLeaf (n : Node) : Except CompileError Fragment := do
  let symbol := Identifier.ofText n.uid
  let source ← n.sourceType
  let element ← n.resolvedType
  let dims ← n.bufferDims
  let vars ← n.indexVars
  let storage : LeafStorage :=
    match n.quantization with
    | none => .plain
    | some q => .quantized element q.reservedBits
  let quantized := n.quantization.isSome
  return {
    symbol := some symbol
    claims := leafClaims symbol quantized
    values := [{ uid := n.uid, symbol, source, storage }]
    body := leafBody symbol element dims vars quantized }

/-! ### Signature -/

def ofInput (s : Scope) (n : Node) : Except CompileError Fragment := do
  let name := Identifier.ofText n.displayName
  if s.inputs.any (·.name == name) then .error (.duplicateName n.uid .input name)
  let element ← n.resolvedType
  let dims ← n.bufferDims
  let recurrence := n.recurrenceOffset.map fun offset => { offset, dims : RecurrentSlot }
  return {
    symbol := some name
    claims := name ::
      if recurrence.isSome then [Identifier.history name, Identifier.historyParam name] else []
    inputs := [{ name, uid := n.uid, element, recurrence }] }

/-- The name of the recurrent input that the operand of a recurrent output must be. -/
def feedbackName (s : Scope) (n : Node) (id : UInt64) : Except CompileError String := do
  let (target, _) ← s.operand n id
  if target.kind = .input ∧ target.recurrenceOffset.isSome then
    return Identifier.ofText target.displayName
  else .error (.unmatchedFeedback n.uid id)

/-- What an output realizes and feeds. An immediate output has one operand; a recurrent one
    has two, the second the input that it feeds. -/
def outputOperands (n : Node) : Except CompileError (UInt64 × Option UInt64) :=
  match n.recurrenceOffset.isSome, n.operands with
  | false, [value] => .ok (value, none)
  | true, [value, target] => .ok (value, some target)
  | recurrent, operands => .error (.malformedOutput n.uid recurrent operands.length)

def ofOutput (s : Scope) (n : Node) : Except CompileError Fragment := do
  let (value, target) ← outputOperands n
  let name := Identifier.ofText n.displayName
  if s.outputs.any (·.name == name) then .error (.duplicateName n.uid .output name)
  let element ← n.sourceType
  let _ ← n.bufferDims
  let (_, value) ← s.operand n value
  let feeds ← target.mapM (feedbackName s n)
  return { outputs := [{ name, uid := n.uid, value, element, feeds }] }

/-! ### Operators -/

/-- A stage that is defined by one call, computed once if it is shared. -/
def stage (n : Node) (value : Expr) (shared : Bool) : Fragment :=
  let symbol := Identifier.ofText n.uid
  { symbol := some symbol
    claims := [symbol]
    body := .func symbol (.expr value) :: if shared then [.computeRoot symbol] else [] }

def ofBinary (s : Scope) (n : Node) (shared : Bool) (op : BinaryOp) (x y : UInt64) :
    Except CompileError Fragment := do
  let (_, lhs) ← s.operand n x
  let (_, rhs) ← s.operand n y
  return stage n (.call op.callee [.ref lhs, .ref rhs]) shared

/-- The runtime function of a unary operation. A sigmoid is of the node's own type. -/
def unaryCallee (n : Node) : UnaryOp → Except CompileError Callee
  | .log => .ok .log
  | .tanh => .ok .tanh
  | .sigmoid => return .sigmoid (← n.resolvedType)

def ofUnary (s : Scope) (n : Node) (op : UnaryOp) (x : UInt64) : Except CompileError Fragment := do
  let (_, arg) ← s.operand n x
  let callee ← unaryCallee n op
  return stage n (.call callee [.ref arg]) false

def ofTimes (s : Scope) (n : Node) (shared : Bool) (x w : UInt64) :
    Except CompileError Fragment := do
  let (vector, vectorSymbol) ← s.operand n x
  vector.requireVector
  let (matrix, matrixSymbol) ← s.operand n w
  let (rows, cols) ← matrix.matrixDims
  let callee : Callee :=
    if n.quantization.isSome then .vectorByMatrixTimesQuantized else .vectorByMatrixTimes
  return stage n
    (.call callee [.ref vectorSymbol, .ref matrixSymbol, .ofSize rows, .ofSize cols]) shared

def ofSlice (s : Scope) (n : Node) (first last : Int64) (x : UInt64) :
    Except CompileError Fragment := do
  let (vector, arg) ← s.operand n x
  let _ ← vector.vectorLength .sliceOperand
  return stage n (.call .slice [.ref arg, .int first, .int last]) false

def ofSplice (s : Scope) (n : Node) (x y : UInt64) : Except CompileError Fragment := do
  let (front, frontSymbol) ← s.operand n x
  let (back, backSymbol) ← s.operand n y
  let frontLength ← front.vectorLength .spliceOperands
  let backLength ← back.vectorLength .spliceOperands
  return stage n
    (.call .splice [.ref frontSymbol, .ref backSymbol, .ofSize frontLength, .ofSize backLength])
    false

/-- An operator node must have as many operands as its operation takes. -/
def ofOperation (s : Scope) (n : Node) (shared : Bool) (op : Operation) :
    Except CompileError Fragment :=
  match op, n.operands with
  | .binary op, [x, y] => ofBinary s n shared op x y
  | .unary op, [x] => ofUnary s n op x
  | .times, [x, w] => ofTimes s n shared x w
  | .slice first last, [x] => ofSlice s n first last x
  | .splice, [x, y] => ofSplice s n x y
  | op, operands => .error (.operatorArity n.uid op.name op.arity operands.length)

def ofOperator (s : Scope) (n : Node) (shared : Bool) : Except CompileError Fragment := do
  ofOperation s n shared (← Operation.ofNode n)

/-! ### Quantize markers -/

/-- The operand and the quantization of a marker. -/
def markerOperand (n : Node) : Except CompileError (UInt64 × Quantization) :=
  match n.operands, n.quantization with
  | [x], some q => .ok (x, q)
  | [_], none => .error (.missingAttribute n.uid "Quantize" "quantized")
  | operands, _ => .error (.operatorArity n.uid "Quantize" 1 operands.length)

def ofMarker (s : Scope) (n : Node) : Except CompileError Fragment := do
  let (x, q) ← markerOperand n
  let (_, arg) ← s.operand n x
  let dims ← n.quantizeDims
  let source ← n.sourceType
  let target ← n.resolvedType
  let symbol := Identifier.ofText n.uid
  let args := .ref arg :: dims.map Expr.ofSize ++ [.int q.reservedBits.toUInt64.toInt64]
  return {
    symbol := some symbol
    claims := [symbol]
    body := [.funcGroup symbol (.call (.quantize source target) args)] }

/-- The contribution of a node; `shared` says whether several nodes consume it. -/
def ofNode (s : Scope) (shared : Bool) (n : Node) : Except CompileError Fragment :=
  match n.kind with
  | .parameter | .constant => ofLeaf n
  | .input => ofInput s n
  | .output => ofOutput s n
  | .operator _ _ => ofOperator s n shared
  | .quantizeMarker => ofMarker s n

end Fragment

end EvaluatorGen
