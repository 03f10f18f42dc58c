import EvaluatorGen.Lowering.Walk

/-!
What each node of a graph contributes to a plan, said by the graph alone.

Lowering visits the nodes one by one and keeps a table of what it has seen. The functions
below use no such state: they read a node, and its operands in the graph. They have a value
for every node, supported or not; which nodes lowering takes is said in
`Proofs.Lowering.Acceptable`, and that it contributes for them what is defined here is shown
in `Proofs.Lowering.Rules`.

1. `Node.symbol` and `Node.identifiers`: the names that a node brings into the class.
2. `Node.leafValue`, `Node.inputBinding`, `Graph.outputBinding`: its entry in the plan.
3. `Node.callee?` and `Graph.literals`: an operator as one call, of a runtime function at its
   operands in order and then at integer literals.
4. `Graph.statements`: its part of the pipeline.
5. `Graph.draft`: what all nodes before a position contribute together.
-/
namespace EvaluatorGen

namespace Node

/-! ### Names -/

/-- The name of an input or output in the signatures. -/
def signatureName (n : Node) : String := Identifier.ofText n.displayName

/-- The identifier that stands for the node in the pipeline. -/
def symbol (n : Node) : String :=
  match n.kind with
  | .input => n.signatureName
  | _ => Identifier.ofText n.uid

/-- The symbol of a node that has one: every node but an output. -/
def symbol? (n : Node) : Option String :=
  if n.kind = .output then none else some n.symbol

def isInput (n : Node) : Bool := n.kind = .input

def isOutput (n : Node) : Bool := n.kind = .output

theorem isInput_iff {n : Node} : n.isInput ↔ n.kind = .input := by simp [isInput]

theorem isOutput_iff {n : Node} : n.isOutput ↔ n.kind = .output := by simp [isOutput]

theorem not_output_of_input {n : Node} (h : n.isInput) : n.kind ≠ .output := by
  simp [isInput_iff.mp h]

def isRecurrent (n : Node) : Bool := n.recurrenceOffset.isSome

def isQuantized (n : Node) : Bool := n.quantization.isSome

/-- The identifiers that the class declares for the node. -/
def identifiers (n : Node) : List String :=
  match n.kind with
  | .parameter | .constant =>
    [n.symbol, Identifier.buffer n.symbol, Identifier.storage n.symbol,
     Identifier.getter n.symbol, Identifier.setter n.symbol] ++
    if n.isQuantized then
      [Identifier.viewStage n.symbol, Identifier.stepStage n.symbol, Identifier.step n.symbol]
    else []
  | .input =>
    n.symbol ::
    if n.isRecurrent then [Identifier.history n.symbol, Identifier.historyParam n.symbol] else []
  | .operator _ _ | .quantizeMarker => [n.symbol]
  | .output => []

theorem isLeaf_iff {n : Node} : n.isLeaf ↔ n.kind = .parameter ∨ n.kind = .constant := by
  unfold isLeaf NodeKind.isLeaf
  cases n.kind <;> simp

theorem identifiers_leaf {n : Node} (h : n.isLeaf) :
    n.identifiers =
      [n.symbol, Identifier.buffer n.symbol, Identifier.storage n.symbol,
       Identifier.getter n.symbol, Identifier.setter n.symbol] ++
      if n.isQuantized then
        [Identifier.viewStage n.symbol, Identifier.stepStage n.symbol, Identifier.step n.symbol]
      else [] := by
  rcases isLeaf_iff.mp h with hk | hk <;> simp [identifiers, hk]

/-! ### Types and sizes -/

def rank (n : Node) : Nat := n.shape.length

/-- The floating type of the node's declared element type. -/
def floatType (n : Node) : ScalarType :=
  if n.elementType = .f64 then .double else .float

/-- The type that the node's values are kept in. -/
def valueType (n : Node) : ScalarType :=
  match n.quantization with
  | none => n.floatType
  | some q => if q.bits = 8 then .int8 else .int16

/-- The extents in declared order; a scalar is one element. -/
def sizes (n : Node) : List UInt64 := if n.shape = [] then [1] else n.shape

def vars (n : Node) : IndexVars := if n.rank ≤ 1 then .one else .two

/-! ### Entries of the plan -/

def leafValue (n : Node) : LeafValue where
  uid := n.uid
  symbol := n.symbol
  source := n.floatType
  storage :=
    match n.quantization with
    | none => .plain
    | some q => .quantized n.valueType q.reservedBits

def inputBinding (n : Node) : InputBinding where
  name := n.symbol
  uid := n.uid
  element := n.valueType
  recurrence := n.recurrenceOffset.map fun offset => ⟨offset, n.sizes.reverse⟩

/-- The runtime function that an operator or a marker applies. -/
def callee? (n : Node) : Option Callee :=
  match n.kind with
  | .operator "Plus" _ => some .plus
  | .operator "Minus" _ => some .minus
  | .operator "ElementTimes" _ => some .elementTimes
  | .operator "Log" _ => some .log
  | .operator "Tanh" _ => some .tanh
  | .operator "Sigmoid" _ => some (.sigmoid n.valueType)
  | .operator "StableSigmoid" _ => some (.sigmoid n.valueType)
  | .operator "Times" _ =>
    some (if n.isQuantized then .vectorByMatrixTimesQuantized else .vectorByMatrixTimes)
  | .operator "Slice" _ => some .slice
  | .operator "Splice" _ => some .splice
  | .quantizeMarker => some (.quantize n.floatType n.valueType)
  | _ => none

/-- The nodes that are one call: operators and markers. -/
def IsCall (n : Node) : Prop :=
  (∃ name a, n.kind = .operator name a) ∨ n.kind = .quantizeMarker

/-- The operators whose result is computed once if several nodes read it. -/
def isArithmetic (n : Node) : Bool :=
  match n.kind with
  | .operator name _ => name ∈ ["Plus", "Minus", "ElementTimes", "Times"]
  | _ => false

/-- The statements of a leaf: its buffer, then its one stage, or, when it is quantized, the
    stages of its integers and of its scale and the pair of both. -/
def leafStatements (n : Node) : List Stmt :=
  .bufferView (Identifier.buffer n.symbol) n.valueType (Identifier.storage n.symbol)
    n.sizes.reverse n.symbol ::
  if n.isQuantized then
    [.func (Identifier.viewStage n.symbol) (.indexed n.vars (Identifier.buffer n.symbol)),
     .func (Identifier.stepStage n.symbol) (.scalar (Identifier.step n.symbol)),
     .funcPair n.symbol (Identifier.viewStage n.symbol) (Identifier.stepStage n.symbol)]
  else [.func n.symbol (.indexed n.vars (Identifier.buffer n.symbol))]

end Node

namespace Graph

/-! ### Operands -/

/-- The node that operand `i` of a node names. -/
def operand? (g : Graph) (n : Node) (i : Nat) : Option Node := n.operands[i]?.bind g.get?

/-- The symbol of the node at a position. -/
def symbolAt (g : Graph) (id : UInt64) : String := ((g.get? id).map Node.symbol).getD ""

def operandShape (g : Graph) (n : Node) (i : Nat) : List UInt64 :=
  ((g.operand? n i).map Node.shape).getD []

/-- The integer arguments of an operator or a marker. A product is given the rows and columns
    of its matrix, where a missing extent is 1. -/
def literals (g : Graph) (n : Node) : List Int64 :=
  match n.kind with
  | .operator "Times" _ =>
    [(g.operandShape n 1).getD 0 1, (g.operandShape n 1).getD 1 1].map UInt64.toInt64
  | .operator "Slice" attributes =>
    [attributes.beginIndex.getD 0, attributes.endIndex.getD 0]
  | .operator "Splice" _ =>
    [(g.operandShape n 0).getD 0 1, (g.operandShape n 1).getD 0 1].map UInt64.toInt64
  | .quantizeMarker =>
    n.sizes.map UInt64.toInt64 ++
      n.quantization.toList.map fun q => q.reservedBits.toUInt64.toInt64
  | _ => []

/-- The call of a runtime function at the operands of a node and its literals. -/
def callExpr (g : Graph) (n : Node) (callee : Callee) : Expr :=
  .call callee
    (n.operands.map (fun o => .ref (g.symbolAt o)) ++ (g.literals n).map .int)

def outputBinding (g : Graph) (n : Node) : OutputBinding where
  name := n.signatureName
  uid := n.uid
  value := ((g.operand? n 0).map Node.symbol).getD ""
  element := n.floatType
  feeds := if n.isRecurrent then (g.operand? n 1).map Node.symbol else none

/-! ### Statements -/

/-- Whether several nodes consume the node at a position. -/
def isShared (g : Graph) (id : Nat) : Bool := 1 < g.consumerCounts.getD id 0

/-- The part of the pipeline that the node at position `id` brings. -/
def statements (g : Graph) (id : Nat) (n : Node) : List Stmt :=
  match n.kind, n.callee? with
  | .parameter, _ | .constant, _ => n.leafStatements
  | .operator _ _, some callee =>
    .func n.symbol (.expr (g.callExpr n callee)) ::
    if n.isArithmetic && g.isShared id then [.computeRoot n.symbol] else []
  | .quantizeMarker, some callee => [.funcGroup n.symbol (g.callExpr n callee)]
  | _, _ => []

/-! ### All nodes before a position -/

/-- The contribution of the node at position `id`. -/
def fragment (g : Graph) (id : Nat) (n : Node) : Fragment where
  symbol := n.symbol?
  claims := n.identifiers
  values := if n.isLeaf then [n.leafValue] else []
  inputs := if n.isInput then [n.inputBinding] else []
  outputs := if n.isOutput then [g.outputBinding n] else []
  body := g.statements id n

/-- The identifiers in use when the nodes before position `k` are lowered. -/
def reservedTo (g : Graph) (k : Nat) : List String :=
  Identifier.fixed ++ (g.nodes.take k).flatMap Node.identifiers

/-- What the nodes before position `k` contribute together. -/
def draft (g : Graph) (k : Nat) : Draft where
  scope := {
    lowered := (g.nodes.take k).map fun n => ⟨n, n.symbol?⟩
    inputs := ((g.nodes.take k).filter Node.isInput).map Node.inputBinding
    outputs := ((g.nodes.take k).filter Node.isOutput).map g.outputBinding }
  reserved := g.reservedTo k
  values := ((g.nodes.take k).filter Node.isLeaf).map Node.leafValue
  body := (g.nodes.take k).zipIdx.flatMap fun p => g.statements p.2 p.1

/-- The plan that all nodes contribute to. -/
def planOf (g : Graph) (naming : Naming) : Plan where
  enclosing := naming.enclosing
  className := naming.className
  values := g.leaves.map Node.leafValue
  inputs := Draft.signatureOrder InputBinding.name (·.recurrence.isSome)
    ((g.nodes.filter Node.isInput).map Node.inputBinding)
  outputs := Draft.signatureOrder OutputBinding.name (·.feeds.isSome)
    ((g.nodes.filter Node.isOutput).map g.outputBinding)
  body := g.nodes.zipIdx.flatMap fun p => g.statements p.2 p.1

end Graph

end EvaluatorGen
