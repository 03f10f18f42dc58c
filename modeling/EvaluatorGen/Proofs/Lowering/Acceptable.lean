import EvaluatorGen.Proofs.Lowering.Contribution

/-!
Which graphs can be lowered, said without an order of checks.

Each kind of node has its own conditions, on the node and on the operands that it names. Three
conditions are on the graph as a whole: no identifier is declared twice, the outputs have names
of their own, and every recurrent input is fed by exactly one output, which names it as its
second operand. `Acceptable` is all of them together.
-/
namespace EvaluatorGen

namespace Node

/-! ### Conditions on one node -/

/-- Declared with one of the two floating types. -/
def HasFloatType (n : Node) : Prop := n.elementType = .f32 ∨ n.elementType = .f64

/-- Quantized, if at all, to 8 or 16 bits. -/
def HasWidth (n : Node) : Prop := ∀ q, n.quantization = some q → q.bits = 8 ∨ q.bits = 16

/-- Quantized to 8 or 16 bits, or not quantized and declared with a floating type. -/
def HasValueType (n : Node) : Prop := n.HasWidth ∧ (n.quantization = none → n.HasFloatType)

structure LeafFits (n : Node) : Prop where
  float : n.HasFloatType
  rank : n.rank ≤ 2
  width : n.HasWidth

structure InputFits (n : Node) : Prop where
  rank : n.rank ≤ 2
  type : n.HasValueType

/-- Whether the node is a recurrent output whose second operand is the node at a position. -/
def feeds (n : Node) (id : Nat) : Bool :=
  n.isOutput && n.isRecurrent && n.operands[1]?.map UInt64.toNat == some id

end Node

/-- The operators, each with its number of operands. -/
def operandCount? : String → Option Nat
  | "Plus" | "Minus" | "ElementTimes" | "Times" | "Splice" => some 2
  | "Log" | "Tanh" | "Sigmoid" | "StableSigmoid" | "Slice" => some 1
  | _ => none

namespace Graph

/-! ### Conditions on a node and its operands -/

/-- The node at position `id` may name `o`: an earlier node that is not an output. -/
def Available (g : Graph) (id : Nat) (o : UInt64) : Prop :=
  o.toNat < id ∧ ∃ m, g.get? o = some m ∧ m.kind ≠ .output

def operandRank? (g : Graph) (n : Node) (i : Nat) : Option Nat := (g.operand? n i).map Node.rank

structure OperatorFits (g : Graph) (id : Nat) (n : Node) (name : String) (a : Attributes) :
    Prop where
  arity : operandCount? name = some n.operands.length
  available : ∀ o ∈ n.operands, g.Available id o
  bounds : name = "Slice" →
    (a.stride = none ∨ a.stride = some 1) ∧ a.beginIndex.isSome ∧ a.endIndex.isSome
  slice : name = "Slice" → g.operandRank? n 0 = some 1
  times : name = "Times" →
    (∃ r ≤ 1, g.operandRank? n 0 = some r) ∧ ∃ r ≤ 2, g.operandRank? n 1 = some r
  splice : name = "Splice" → g.operandRank? n 0 = some 1 ∧ g.operandRank? n 1 = some 1
  sigmoid : name = "Sigmoid" ∨ name = "StableSigmoid" → n.HasValueType

structure MarkerFits (g : Graph) (id : Nat) (n : Node) : Prop where
  arity : n.operands.length = 1
  available : ∀ o ∈ n.operands, g.Available id o
  quantized : n.isQuantized
  width : n.HasWidth
  float : n.HasFloatType
  rank : n.rank ≤ 2

structure OutputFits (g : Graph) (id : Nat) (n : Node) : Prop where
  arity : n.operands.length = if n.isRecurrent then 2 else 1
  available : ∀ o ∈ n.operands, g.Available id o
  float : n.HasFloatType
  rank : n.rank ≤ 2
  feedback : n.isRecurrent → ∃ m, g.operand? n 1 = some m ∧ m.kind = .input ∧ m.isRecurrent

/-- The conditions on the node at position `id`, by its kind. -/
def NodeFits (g : Graph) (id : Nat) (n : Node) : Prop :=
  match n.kind with
  | .parameter | .constant => n.LeafFits
  | .input => n.InputFits
  | .output => g.OutputFits id n
  | .operator name attributes => g.OperatorFits id n name attributes
  | .quantizeMarker => g.MarkerFits id n

/-! ### Conditions on the graph -/

/-- Every identifier of the class but the names of the immediate outputs. -/
def reserved (g : Graph) : List String := Identifier.fixed ++ g.nodes.flatMap Node.identifiers

structure Acceptable (g : Graph) : Prop where
  nodes : ∀ (id : Nat) (n : Node), g.nodes[id]? = some n → g.NodeFits id n
  identifiers : g.reserved.Nodup
  outputNames : ((g.nodes.filter Node.isOutput).map Node.signatureName).Nodup
  /-- No output has the name of an input. -/
  outputsApart : ∀ n ∈ g.nodes, n.isOutput → ∀ m ∈ g.nodes, m.isInput →
    n.signatureName ≠ m.signatureName
  /-- The names of the immediate outputs are free. -/
  outputsFree : ∀ n ∈ g.nodes, n.isOutput → n.isRecurrent = false →
    n.signatureName ∉ g.reserved
  fedOnce : ∀ (id : Nat) (n : Node), g.nodes[id]? = some n → n.isInput → n.isRecurrent →
    g.nodes.countP (·.feeds id) = 1

end Graph

/-! ### Calls -/

namespace Node.IsCall

variable {g : Graph} {id : Nat} {n : Node}

theorem not_output (h : n.IsCall) : n.kind ≠ .output := by
  rcases h with ⟨name, a, hk⟩ | hk <;> simp [hk]

theorem not_input (h : n.IsCall) : n.isInput = false := by
  rcases h with ⟨name, a, hk⟩ | hk <;> simp [Node.isInput, hk]

theorem callee (h : n.IsCall) (hfit : g.NodeFits id n) : ∃ c, n.callee? = some c := by
  rcases h with ⟨name, a, hk⟩ | hk
  · rw [Graph.NodeFits, hk] at hfit
    have harity := hfit.arity
    unfold operandCount? at harity
    split at harity <;> simp_all [Node.callee?]
  · simp [Node.callee?, hk]

theorem available (h : n.IsCall) (hfit : g.NodeFits id n) :
    ∀ o ∈ n.operands, g.Available id o := by
  rcases h with ⟨name, a, hk⟩ | hk
  · rw [Graph.NodeFits, hk] at hfit
    exact hfit.available
  · rw [Graph.NodeFits, hk] at hfit
    exact hfit.available

end Node.IsCall

end EvaluatorGen
