import EvaluatorGen.Graph.Basic

/-!
Why a graph cannot be lowered. Every error names a node by its uid.
-/
namespace EvaluatorGen

/-- The rules on shapes. -/
inductive ShapeRule where
  | rankAtMostTwo
  | quantizedRankAtMostTwo
  | matrixOperand
  | vectorOperand
  | sliceOperand
  | spliceOperands
  deriving DecidableEq, Repr

def ShapeRule.text : ShapeRule → String
  | .rankAtMostTwo => "only rank 0, 1 and 2 are supported"
  | .quantizedRankAtMostTwo => "quantization supports only rank 0, 1 and 2"
  | .matrixOperand => "Times matrix operand must have rank <= 2"
  | .vectorOperand => "Times vector operand must have rank 0 or 1"
  | .sliceOperand => "Slice operand must be a vector"
  | .spliceOperands => "Splice operands must be vectors"

/-- The two sides of a signature. -/
inductive Role where
  | input
  | output
  deriving DecidableEq, Repr

def Role.text : Role → String
  | .input => "input"
  | .output => "output"

inductive CompileError where
  | unsupportedOperator (node op : String)
  | operatorArity (node op : String) (expected found : Nat)
  | unsupportedShape (node : String) (shape : List UInt64) (rule : ShapeRule)
  | unsupportedStride (node : String) (stride : Int64)
  | unsupportedQuantizationWidth (node : String) (bits : UInt32)
  /-- An output with the wrong number of operands. -/
  | malformedOutput (node : String) (recurrent : Bool) (found : Nat)
  | unmatchedFeedback (node : String) (operand : UInt64)
  | unsupportedElementType (node : String) (type : ElementType)
  | operandNotLowered (node : String) (operand : UInt64)
  | duplicateSymbol (node symbol : String)
  | duplicateName (node : String) (role : Role) (name : String)
  | missingAttribute (node op missing : String)
  | unpairedRecurrence (node : String) (feeders : Nat)
  deriving DecidableEq, Repr

/-- An output has one operand, and a recurrent one names the input that it feeds as well. -/
def outputArity (recurrent : Bool) : Nat := if recurrent then 2 else 1

namespace CompileError

/-- The uid of the node at fault. -/
def node : CompileError → String
  | .unsupportedOperator node _ => node
  | .operatorArity node _ _ _ => node
  | .unsupportedShape node _ _ => node
  | .unsupportedStride node _ => node
  | .unsupportedQuantizationWidth node _ => node
  | .malformedOutput node _ _ => node
  | .unmatchedFeedback node _ => node
  | .unsupportedElementType node _ => node
  | .operandNotLowered node _ => node
  | .duplicateSymbol node _ => node
  | .duplicateName node _ _ => node
  | .missingAttribute node _ _ => node
  | .unpairedRecurrence node _ => node

def shapeText (shape : List UInt64) : String :=
  "[" ++ ", ".intercalate (shape.map fun n => n.toNat.repr) ++ "]"

def typeText : ElementType → String
  | .f32 => "F32"
  | .f64 => "F64"
  | .f16 => "F16"
  | .i32 => "I32"

/-- The reason, without the node. -/
def reason : CompileError → String
  | .unsupportedOperator _ op => "unsupported operator '" ++ op ++ "'"
  | .operatorArity _ op expected found =>
    "operator " ++ op ++ " expects " ++ expected.repr ++ " operand(s), given " ++ found.repr
  | .unsupportedShape _ shape rule =>
    "unsupported shape " ++ shapeText shape ++ ", " ++ rule.text
  | .unsupportedStride _ stride =>
    "unsupported slice stride " ++ stride.toInt.repr ++ ", only stride 1 is supported"
  | .unsupportedQuantizationWidth _ bits =>
    "unsupported quantization width " ++ bits.toNat.repr ++ ", expected 8 or 16 bits"
  | .malformedOutput _ recurrent found =>
    (if recurrent then "recurrent" else "immediate") ++ " output expects " ++
      (outputArity recurrent).repr ++ " operand(s), given " ++ found.repr
  | .unmatchedFeedback _ operand =>
    "recurrent output must feed a recurrent input, operand " ++ operand.toNat.repr ++
      " is not one"
  | .unsupportedElementType _ type =>
    "unsupported element type " ++ typeText type ++ ", expected f32 or f64"
  | .operandNotLowered _ operand =>
    "operand " ++ operand.toNat.repr ++
      " has not been lowered yet (graph not in dependency order)"
  | .duplicateSymbol _ symbol => "symbol '" ++ symbol ++ "' is already bound"
  | .duplicateName _ role name => role.text ++ " name '" ++ name ++ "' is not unique"
  | .missingAttribute _ op missing =>
    "operator " ++ op ++ " is missing attribute '" ++ missing ++ "'"
  | .unpairedRecurrence _ feeders =>
    "recurrent input is fed by " ++ feeders.repr ++ " recurrent outputs, expected exactly 1"

def message (e : CompileError) : String :=
  "node '" ++ e.node ++ "': " ++ e.reason

end CompileError

end EvaluatorGen
