import EvaluatorGen.Lowering.Error
import EvaluatorGen.Plan.Basic

/-!
The operations that a graph may name. `Operation.ofNode` is the only place where the name of
an operator is looked at.
-/
namespace EvaluatorGen

inductive BinaryOp where
  | plus
  | minus
  | elementTimes
  deriving DecidableEq, Repr

inductive UnaryOp where
  | log
  | tanh
  | sigmoid
  deriving DecidableEq, Repr

inductive Operation where
  | binary (op : BinaryOp)
  | unary (op : UnaryOp)
  /-- Product of a vector and a matrix. -/
  | times
  /-- A contiguous range of a vector. -/
  | slice (first last : Int64)
  /-- One vector behind another. -/
  | splice
  deriving DecidableEq, Repr

namespace Operation

def name : Operation → String
  | .binary .plus => "Plus"
  | .binary .minus => "Minus"
  | .binary .elementTimes => "ElementTimes"
  | .unary .log => "Log"
  | .unary .tanh => "Tanh"
  | .unary .sigmoid => "Sigmoid"
  | .times => "Times"
  | .slice _ _ => "Slice"
  | .splice => "Splice"

/-- The number of operands. -/
def arity : Operation → Nat
  | .binary _ | .times | .splice => 2
  | .unary _ | .slice _ _ => 1

/-- A slice has unit stride, which is asked first, and both bounds. -/
def sliceOf (uid : String) (a : Attributes) : Except CompileError Operation :=
  match a.stride.filter (· != 1), a.beginIndex, a.endIndex with
  | some stride, _, _ => .error (.unsupportedStride uid stride)
  | none, none, _ => .error (.missingAttribute uid "Slice" "begin_index")
  | none, some _, none => .error (.missingAttribute uid "Slice" "end_index")
  | none, some first, some last => .ok (.slice first last)

/-- The operation of an operator node. -/
def ofNode (n : Node) : Except CompileError Operation :=
  match n.kind with
  | .operator "Plus" _ => .ok (.binary .plus)
  | .operator "Minus" _ => .ok (.binary .minus)
  | .operator "ElementTimes" _ => .ok (.binary .elementTimes)
  | .operator "Log" _ => .ok (.unary .log)
  | .operator "Tanh" _ => .ok (.unary .tanh)
  | .operator "Sigmoid" _ => .ok (.unary .sigmoid)
  | .operator "StableSigmoid" _ => .ok (.unary .sigmoid)
  | .operator "Times" _ => .ok .times
  | .operator "Slice" attributes => sliceOf n.uid attributes
  | .operator "Splice" _ => .ok .splice
  | .operator op _ => .error (.unsupportedOperator n.uid op)
  | kind => .error (.unsupportedOperator n.uid kind.label)

end Operation

/-- The runtime function of an element-wise operation. -/
def BinaryOp.callee : BinaryOp → Callee
  | .plus => .plus
  | .minus => .minus
  | .elementTimes => .elementTimes

end EvaluatorGen
