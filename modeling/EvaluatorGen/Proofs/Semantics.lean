import EvaluatorGen.Proofs.Lowering.Contribution

/-!
What a pipeline computes, and what a graph means.

Both are given for any values `V` and any `Runtime` over them: the functions of the runtime
library, and what the members of the class hold.

1. `Stmt.exec` runs one statement in an environment of named values. Reading a name that is not
   bound and binding a name again are faults, so a run that ends well does neither.
2. `Graph.meaning` gives the value of the node at a position by recursion over its operands. It
   uses no names but those of the inputs and of the members.
-/
namespace EvaluatorGen

/-- An argument of a runtime function: a value or an integer literal. -/
inductive Argument (V : Type) where
  | value (v : V)
  | literal (n : Int64)

/-- The runtime library and the members of the class, over values `V`. -/
structure Runtime (V : Type) where
  call : Callee → List (Argument V) → V
  /-- What a member of the class holds. -/
  member : String → V
  /-- A typed buffer, the innermost extent first, over what a member holds. -/
  buffer : ScalarType → List UInt64 → V → V
  /-- The stage that reads a buffer at one or two index variables. -/
  index : IndexVars → V → V
  /-- The stage without index variables that a member's value gives. -/
  scalar : V → V
  /-- The two stages of a quantized leaf under one name. -/
  pair : V → V → V

/-- What can go wrong when generated code runs. -/
inductive Trap where
  | unbound (name : String)
  | rebound (name : String)
  /-- An integer literal stands where a stage is needed. -/
  | literalStage
  | argumentCount
  | outOfRange (history : String) (index : Int)
  deriving DecidableEq, Repr

/-- The names in scope with their values. -/
abbrev Env (V : Type) := String → Option V

namespace Env

variable {V : Type}

def empty : Env V := fun _ => none

def set (env : Env V) (name : String) (v : V) : Env V :=
  fun x => if x = name then some v else env x

def read (env : Env V) (name : String) : Except Trap V :=
  match env name with
  | some v => .ok v
  | none => .error (.unbound name)

/-- Declare a name, which must be new. -/
def declare (env : Env V) (name : String) (v : V) : Except Trap (Env V) :=
  match env name with
  | none => .ok (env.set name v)
  | some _ => .error (.rebound name)

@[simp] theorem set_self (env : Env V) (name : String) (v : V) : env.set name v name = some v :=
  if_pos rfl

theorem set_of_ne (env : Env V) {name x : String} (v : V) (h : x ≠ name) :
    env.set name v x = env x :=
  if_neg h

theorem read_of_some {env : Env V} {name : String} {v : V} (h : env name = some v) :
    env.read name = .ok v := by
  simp [read, h]

theorem declare_of_none {env : Env V} {name : String} (v : V) (h : env name = none) :
    env.declare name v = .ok (env.set name v) := by
  simp [declare, h]

end Env

/-! ### Pipelines -/

section Execution

variable {V : Type} (R : Runtime V)

/-- An argument that is used as a stage. -/
def Argument.stage : Argument V → Except Trap V
  | .value v => .ok v
  | .literal _ => .error .literalStage

mutual

def Expr.eval (env : Env V) : Expr → Except Trap (Argument V)
  | .ref name => (env.read name).map .value
  | .int n => .ok (.literal n)
  | .call callee args => (Expr.evalArgs env args).map fun vs => .value (R.call callee vs)

def Expr.evalArgs (env : Env V) : List Expr → Except Trap (List (Argument V))
  | [] => .ok []
  | e :: es => do
    let v ← Expr.eval env e
    let vs ← Expr.evalArgs env es
    return v :: vs

end

/-- The environment after one statement. -/
def Stmt.exec (env : Env V) : Stmt → Except Trap (Env V)
  | .bufferView name element storage dims _ =>
    env.declare name (R.buffer element dims (R.member storage))
  | .func name (.indexed vars buffer) => do
    let b ← env.read buffer
    env.declare name (R.index vars b)
  | .func name (.scalar memberName) => env.declare name (R.scalar (R.member memberName))
  | .func name (.expr e) => do
    let v ← (← e.eval R env).stage
    env.declare name v
  | .funcPair name view step => do
    let v ← env.read view
    let s ← env.read step
    env.declare name (R.pair v s)
  | .funcGroup name e => do
    let v ← (← e.eval R env).stage
    env.declare name v
  | .computeRoot name => do
    let _ ← env.read name
    return env

/-- The environment after a list of statements, run from top to bottom. -/
def execAll (env : Env V) (body : List Stmt) : Except Trap (Env V) :=
  body.foldlM (Stmt.exec R) env

end Execution

/-! ### Graphs -/

/-- The value of a leaf: a view of the buffer over its storage member, with the scale of its
    step member if it is quantized. -/
def Runtime.leaf {V : Type} (R : Runtime V) (n : Node) : V :=
  let view := R.index n.vars
    (R.buffer n.valueType n.sizes.reverse (R.member (Identifier.storage n.symbol)))
  if n.isQuantized then R.pair view (R.scalar (R.member (Identifier.step n.symbol))) else view

/-- The value of the node at a position. An input has the value that is given for its name, and
    an operator or marker applies its runtime function to its operands in order and then to its
    literals. Outputs have none, nor has a node that names one, an unknown operator, or an
    operand that does not stand before it. -/
def Graph.meaning {V : Type} (R : Runtime V) (inputs : Env V) (g : Graph) (id : Nat) :
    Option V :=
  match g.nodes[id]? with
  | none => none
  | some n =>
    match n.kind with
    | .parameter | .constant => some (R.leaf n)
    | .input => inputs n.symbol
    | .output => none
    | .operator _ _ | .quantizeMarker => do
      let callee ← n.callee?
      let values ← n.operands.mapM fun o =>
        if _ : o.toNat < id then Graph.meaning R inputs g o.toNat else none
      return R.call callee (values.map .value ++ (g.literals n).map .literal)
termination_by id

namespace Graph

variable {V : Type} {R : Runtime V} {inputs : Env V} {g : Graph} {id : Nat} {n : Node}

theorem meaning_leaf (hid : g.nodes[id]? = some n) (h : n.isLeaf) :
    g.meaning R inputs id = some (R.leaf n) := by
  rw [meaning, hid]
  cases hk : n.kind <;> simp_all [Node.isLeaf, NodeKind.isLeaf]

theorem meaning_input (hid : g.nodes[id]? = some n) (h : n.kind = .input) :
    g.meaning R inputs id = inputs n.symbol := by
  rw [meaning, hid]
  simp only [h]

theorem meaning_call (hid : g.nodes[id]? = some n) (h : n.IsCall) {c : Callee}
    (hc : n.callee? = some c) :
    g.meaning R inputs id =
      (n.operands.mapM fun o =>
        if o.toNat < id then g.meaning R inputs o.toNat else none).map fun vs =>
          R.call c (vs.map .value ++ (g.literals n).map .literal) := by
  rw [meaning, hid]
  rcases h with ⟨name, a, hk⟩ | hk
  · simp only [hk, hc]
    exact Option.map_eq_bind.symm
  · simp only [hk, hc]
    exact Option.map_eq_bind.symm

end Graph

end EvaluatorGen
