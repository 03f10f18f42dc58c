import EvaluatorGen.Lowering.Fragment

/-!
Lowering a graph to a plan.

The walk visits each node once, in the order of the graph. It keeps every identifier that the
generated class will declare, starting with the fixed ones, and refuses a node that claims
one of them again. When all nodes are visited, the feedback loops and the names of the
outputs are checked and the signature is put in order.
-/
namespace EvaluatorGen

/-- The names of the generated class and of the namespace around it. -/
structure Naming where
  className : String := "Evaluator"
  enclosing : String := "dnn"
  deriving DecidableEq, Repr, Inhabited

/-- A plan in the making. -/
structure Draft where
  scope : Scope := {}
  /-- Every identifier in use. -/
  reserved : List String := Identifier.fixed
  values : List LeafValue := []
  body : List Stmt := []
  deriving DecidableEq, Repr

namespace Draft

/-- The identifiers in use after a node claims some more, each of which must be free. -/
def claim (uid : String) : List String → List String → Except CompileError (List String)
  | reserved, [] => .ok reserved
  | reserved, name :: names =>
    if name ∈ reserved then .error (.duplicateSymbol uid name)
    else claim uid (reserved ++ [name]) names

/-- The draft with the contribution of one more node, which claims `reserved`. -/
def add (d : Draft) (n : Node) (f : Fragment) (reserved : List String) : Draft where
  scope := {
    lowered := d.scope.lowered ++ [⟨n, f.symbol⟩]
    inputs := d.scope.inputs ++ f.inputs
    outputs := d.scope.outputs ++ f.outputs }
  reserved := reserved
  values := d.values ++ f.values
  body := d.body ++ f.body

/-- Visit the next node. -/
def visit (consumers : List Nat) (d : Draft) (n : Node) : Except CompileError Draft := do
  let shared := decide (1 < consumers.getD d.scope.lowered.length 0)
  let f ← Fragment.ofNode d.scope shared n
  let reserved ← claim n.uid d.reserved f.claims
  return d.add n f reserved

/-! ### Final checks -/

/-- The number of outputs that are fed back to an input. -/
def feeders (outputs : List OutputBinding) (name : String) : Nat :=
  outputs.countP (fun o => o.feeds == some name)

/-- Every recurrent input is fed by exactly one output. -/
def checkFeedback (s : Scope) : Except CompileError Unit :=
  match s.inputs.find? (fun i => i.recurrence.isSome && feeders s.outputs i.name != 1) with
  | some i => .error (.unpairedRecurrence i.uid (feeders s.outputs i.name))
  | none => .ok ()

/-- No output has the name of an input. -/
def checkOutputNames (s : Scope) : Except CompileError Unit :=
  match s.outputs.find? (fun o => s.inputs.any (·.name == o.name)) with
  | some o => .error (.duplicateName o.uid .output o.name)
  | none => .ok ()

/-- Immediate outputs are parameters of the entry point, so their names must be free. -/
def checkOutputSymbols (d : Draft) : Except CompileError Unit :=
  match d.scope.outputs.find? (fun o => o.feeds.isNone && decide (o.name ∈ d.reserved)) with
  | some o => .error (.duplicateSymbol o.uid o.name)
  | none => .ok ()

/-! ### Signature order -/

/-- Insert by name, behind the entries with names up to this one. -/
def insertByName {α : Type} (name : α → String) (x : α) : List α → List α
  | [] => [x]
  | y :: ys => if name x < name y then x :: y :: ys else y :: insertByName name x ys

/-- The entries in increasing order of their names; equal names keep their order. -/
def sortByName {α : Type} (name : α → String) (xs : List α) : List α :=
  xs.foldl (fun sorted x => insertByName name x sorted) []

/-- The entries that are not recurrent by name, then the recurrent ones by name. -/
def signatureOrder {α : Type} (name : α → String) (recurrent : α → Bool) (xs : List α) :
    List α :=
  sortByName name (xs.filter (fun x => !recurrent x)) ++ sortByName name (xs.filter recurrent)

/-- The plan of a draft that has visited every node. -/
def finish (d : Draft) (naming : Naming) : Except CompileError Plan := do
  checkFeedback d.scope
  checkOutputNames d.scope
  checkOutputSymbols d
  return {
    enclosing := naming.enclosing
    className := naming.className
    values := d.values
    inputs := signatureOrder InputBinding.name (·.recurrence.isSome) d.scope.inputs
    outputs := signatureOrder OutputBinding.name (·.feeds.isSome) d.scope.outputs
    body := d.body }

end Draft

namespace Graph

/-- Visit every node once, in the order of the graph. -/
def walk (g : Graph) : Except CompileError Draft :=
  g.nodes.foldlM (Draft.visit g.consumerCounts) {}

/-- The plan of a graph. -/
def lower (g : Graph) (naming : Naming) : Except CompileError Plan := do
  let draft ← g.walk
  draft.finish naming

end Graph

end EvaluatorGen
