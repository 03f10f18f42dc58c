import EvaluatorGen.Binary64.Basic
import EvaluatorGen.Overflow

/-!
Model graphs: nodes in dependency order, with operand edges that name earlier nodes by their
position.

Parameters and constants are leaves and may carry their values. An input or output with a
recurrence offset belongs to a feedback loop: the output is written to a history, from which
the input reads what was written that many steps ago.
-/
namespace EvaluatorGen

/-- The element type a node is declared with. -/
inductive ElementType where
  | f32
  | f64
  | f16
  | i32
  deriving DecidableEq, Repr, Inhabited

/-- How a node is quantized: the width it is stored with, and the bits that the runtime
    quantizer keeps in reserve. -/
structure Quantization where
  bits : UInt32
  reservedBits : UInt32 := 0
  deriving DecidableEq, Repr

/-- The attributes of an operator node, all of them optional. -/
structure Attributes where
  beginIndex : Option Int64 := none
  endIndex : Option Int64 := none
  stride : Option Int64 := none
  deriving DecidableEq, Repr, Inhabited

inductive NodeKind where
  | parameter
  | constant
  | input
  | output
  /-- A primitive function, given by name. -/
  | operator (name : String) (attributes : Attributes)
  /-- A marker in front of quantized operands. -/
  | quantizeMarker
  deriving DecidableEq, Repr

namespace NodeKind

/-- Parameters and constants. -/
def isLeaf : NodeKind → Bool
  | .parameter | .constant => true
  | _ => false

def label : NodeKind → String
  | .parameter => "Parameter"
  | .constant => "Constant"
  | .input => "Input"
  | .output => "Output"
  | .operator _ _ => "Operator"
  | .quantizeMarker => "QuantizeMarker"

end NodeKind

structure Node where
  uid : String
  name : Option String := none
  kind : NodeKind
  shape : List UInt64 := []
  elementType : ElementType := .f32
  quantization : Option Quantization := none
  recurrenceOffset : Option UInt64 := none
  /-- Positions of the operands in the graph. -/
  operands : List UInt64 := []
  /-- The flattened value of a leaf. -/
  value : Option (List Binary64) := none
  deriving DecidableEq, Repr

namespace Node

/-- The name of an input or output in the generated signatures. -/
def displayName (n : Node) : String := n.name.getD n.uid

/-- The number of elements of the node's shape. -/
def elementCount (n : Node) : Except Overflow UInt64 := checkedProduct n.shape

def isLeaf (n : Node) : Bool := n.kind.isLeaf

end Node

structure Graph where
  nodes : List Node := []
  deriving DecidableEq, Repr, Inhabited

namespace Graph

def get? (g : Graph) (id : UInt64) : Option Node := g.nodes[id.toNat]?

def size (g : Graph) : Nat := g.nodes.length

def isEmpty (g : Graph) : Bool := g.nodes.isEmpty

/-- The graph with one more node, at position `g.size`. -/
def push (g : Graph) (n : Node) : Graph := ⟨g.nodes ++ [n]⟩

/-- The graph with the node at position `id` replaced. -/
def set (g : Graph) (id : Nat) (n : Node) : Graph := ⟨g.nodes.set id n⟩

/-- The graph without its last node. -/
def pop (g : Graph) : Graph := ⟨g.nodes.dropLast⟩

/-- The parameters and constants, in graph order. -/
def leaves (g : Graph) : List Node := g.nodes.filter Node.isLeaf

/-! ### Consumers -/

/-- The operands of a node that are positions below `bound`, each counted once. -/
def distinctOperands (bound : Nat) (n : Node) : List Nat :=
  n.operands.foldl
    (fun seen o => if o.toNat < bound ∧ o.toNat ∉ seen then seen ++ [o.toNat] else seen) []

/-- One more consumer for the node at position `id`. -/
def bump (counts : List Nat) (id : Nat) : List Nat := counts.modify id (· + 1)

/-- The number of distinct nodes that consume each node, by position. -/
def consumerCounts (g : Graph) : List Nat :=
  g.nodes.foldl (fun counts n => (distinctOperands g.size n).foldl bump counts)
    (List.replicate g.size 0)

end Graph

end EvaluatorGen
