import EvaluatorGen.Lowering.Error
import EvaluatorGen.Plan.Basic

/-!
What shapes and element types become in the generated code. Only tensors of rank 0, 1 and 2
are supported.
-/
namespace EvaluatorGen.Node

def unsupported {α : Type} (n : Node) (rule : ShapeRule) : Except CompileError α :=
  .error (.unsupportedShape n.uid n.shape rule)

/-! ### Shapes -/

/-- One index variable up to rank 1, two for rank 2. -/
def indexVars (n : Node) : Except CompileError IndexVars :=
  match n.shape with
  | [] | [_] => .ok .one
  | [_, _] => .ok .two
  | _ => n.unsupported .rankAtMostTwo

/-- The extents of a buffer, the innermost first; a scalar is one element. -/
def bufferDims (n : Node) : Except CompileError (List UInt64) :=
  match n.shape with
  | [] => .ok [1]
  | [len] => .ok [len]
  | [rows, cols] => .ok [cols, rows]
  | _ => n.unsupported .rankAtMostTwo

/-- The extents that a quantize call is given, in declared order. -/
def quantizeDims (n : Node) : Except CompileError (List UInt64) :=
  match n.shape with
  | [] => .ok [1]
  | [len] => .ok [len]
  | [rows, cols] => .ok [rows, cols]
  | _ => n.unsupported .quantizedRankAtMostTwo

/-- Rows and columns of the matrix operand of a product: a scalar is one by one, a vector one
    column. -/
def matrixDims (n : Node) : Except CompileError (UInt64 × UInt64) :=
  match n.shape with
  | [] => .ok (1, 1)
  | [len] => .ok (len, 1)
  | [rows, cols] => .ok (rows, cols)
  | _ => n.unsupported .matrixOperand

/-- The vector operand of a product is a vector or a scalar. -/
def requireVector (n : Node) : Except CompileError Unit :=
  match n.shape with
  | [] | [_] => .ok ()
  | _ => n.unsupported .vectorOperand

/-- The length of a node of rank 1. -/
def vectorLength (n : Node) (rule : ShapeRule) : Except CompileError UInt64 :=
  match n.shape with
  | [len] => .ok len
  | _ => n.unsupported rule

/-! ### Element types -/

/-- The floating type that the node is declared with. -/
def sourceType (n : Node) : Except CompileError ScalarType :=
  match n.elementType with
  | .f32 => .ok .float
  | .f64 => .ok .double
  | type => .error (.unsupportedElementType n.uid type)

/-- The integer type of a quantization width. -/
def widthType (n : Node) (q : Quantization) : Except CompileError ScalarType :=
  if q.bits = 8 then .ok .int8
  else if q.bits = 16 then .ok .int16
  else .error (.unsupportedQuantizationWidth n.uid q.bits)

/-- The type that the node's values have: of the storage width if it is quantized, the
    declared one otherwise. -/
def resolvedType (n : Node) : Except CompileError ScalarType :=
  match n.quantization with
  | some q => n.widthType q
  | none => n.sourceType

end EvaluatorGen.Node
