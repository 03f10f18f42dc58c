import EvaluatorGen.Header.Routines
import EvaluatorGen.Proofs.Semantics

/-!
The three routines of a class as programs.

The header holds the routines as text. `Evaluator` is the same as data, so that it can be run.

1. `Plan.evaluator` gives the routines of a plan. The header prints just these:
   `builderText_evaluator`, `loaderText_evaluator`, `evaluateText_evaluator`.
2. `Evaluator.start` is the state after `init`: one history for each recurrent input. What a
   buffer holds before it is written is not known, and is given by `fresh`.
3. `Evaluator.step` is one call of `Evaluate`. Parameters are bound by position, a slot that is
   not there is a fault, and so is a count of arguments that does not match.
4. `Evaluator.run` calls `Evaluate` for the steps 0, 1, 2 and so on.
-/
namespace EvaluatorGen

/-! ### Routines -/

/-- The number of a slot, from the number of the step. -/
inductive IndexExpr where
  | timestep
  | sub (e : IndexExpr) (n : Nat)
  | add (e : IndexExpr) (n : Nat)
  /-- The remainder of the division that rounds toward zero. -/
  | rem (e : IndexExpr) (n : Nat)

/-- One slot of a history. -/
structure Slot where
  history : String
  index : IndexExpr

/-- Where a result goes. -/
inductive Target where
  | parameter (name : String)
  | slot (s : Slot)

/-- A history that `init` allocates. -/
structure Allocation where
  history : String
  length : Nat
  element : ScalarType
  dims : List UInt64

structure Evaluator where
  /-- The parameters of `create_eval_graph`. -/
  parameters : List String
  body : List Stmt
  /-- What `create_eval_graph` returns, each symbol with the name of its output. -/
  results : List (String × String)
  /-- The leaves that `init` reads. -/
  loads : List LeafValue
  allocations : List Allocation
  /-- Whether `Evaluate` is given the number of the step. -/
  timed : Bool
  /-- The inputs that are parameters of `Evaluate`. -/
  inputs : List String
  /-- The outputs that are parameters of `Evaluate`. -/
  outputs : List (ScalarType × String)
  /-- What `Evaluate` passes to `create_eval_graph`. -/
  arguments : List String
  /-- The parameters that `Evaluate` binds to slots. -/
  bindings : List (String × Slot)
  /-- Where `Evaluate` stores the results, in their order. -/
  targets : List Target

def Target.slot? : Target → Option Slot
  | .parameter _ => none
  | .slot s => some s

/-- The slots that a step reads and writes. -/
def Evaluator.slots (e : Evaluator) : List Slot :=
  e.bindings.map Prod.snd ++ e.targets.filterMap Target.slot?

/-- The slot that a recurrent input reads. -/
def readSlot (i : InputBinding) (slot : RecurrentSlot) : Slot where
  history := Identifier.history i.name
  index := .rem (.add (.rem (.sub .timestep slot.offset.toNat) slot.length) slot.length) slot.length

/-- Where an output is stored. -/
def Plan.target (p : Plan) (o : OutputBinding) : Target :=
  match o.feeds with
  | none => .parameter o.name
  | some name =>
    .slot ⟨Identifier.history name, .rem .timestep (Header.historyLength p name)⟩

def Plan.evaluator (p : Plan) : Evaluator where
  parameters := p.inputs.map InputBinding.name
  body := p.body
  results := p.outputs.map fun o => (o.value, o.name)
  loads := p.values
  allocations := p.recurrentInputs.map fun r =>
    ⟨Identifier.history r.1.name, r.2.length, r.1.element, r.2.dims⟩
  timed := p.hasRecurrence
  inputs := p.immediateInputs.map InputBinding.name
  outputs := p.immediateOutputs.map fun o => (o.element, o.name)
  arguments := p.inputs.map Header.buildArg
  bindings := p.recurrentInputs.map fun r =>
    (Identifier.historyParam r.1.name, readSlot r.1 r.2)
  targets := p.outputs.map p.target

/-! ### Their text -/

def IndexExpr.isSum : IndexExpr → Bool
  | .sub _ _ | .add _ _ => true
  | .timestep | .rem _ _ => false

/-- The remainder binds tighter than sum and difference, and all three group to the left. -/
def IndexExpr.text : IndexExpr → String
  | .timestep => "timestep"
  | .sub e n => e.text ++ " - " ++ n.repr
  | .add e n => e.text ++ " + " ++ n.repr
  | .rem e n => (if e.isSum then "(" ++ e.text ++ ")" else e.text) ++ " % " ++ n.repr

def Slot.text (s : Slot) : String := s.history ++ "[" ++ s.index.text ++ "]"

def Target.text : Target → String
  | .parameter name => name
  | .slot s => s.text

def Allocation.text (a : Allocation) : String :=
  Header.setOff 4 (Header.bufferCode a.history a.length a.element a.dims)

namespace Evaluator

open Text (reindent)

def builderText (e : Evaluator) : String :=
  reindent 0 (Header.builderSignature e.parameters) ++
  reindent 0 "\x7b" ++
  reindent 1 Header.indexVariables ++
  String.join (e.body.map fun s => reindent 1 (Header.stmtText s)) ++
  reindent 1 (Header.returnText e.results) ++
  reindent 0 "\x7d"

def loaderText (e : Evaluator) : String :=
  reindent 0 Header.openText ++
  String.join (e.loads.map fun v => reindent 1 (Header.loadText v)) ++
  String.join (e.allocations.map fun a => reindent 1 a.text) ++
  reindent 0 "\x7d"

def evaluateText (e : Evaluator) : String :=
  reindent 0 (Header.evaluateSignature (Header.stepParams e.timed e.inputs e.outputs)) ++
  reindent 0 "\x7b" ++
  reindent 1 (Header.buildOnce e.arguments) ++
  String.join (e.bindings.map fun b => reindent 1 (Header.setText b.1 b.2.text)) ++
  reindent 1 (Header.realizeCall (e.targets.map Target.text)) ++
  reindent 0 "\x7d"

end Evaluator

section Texts

variable (p : Plan)

theorem builderText_evaluator : p.evaluator.builderText = Header.builder p := rfl

theorem loaderText_evaluator : p.evaluator.loaderText = Header.loader p := by
  simp only [Evaluator.loaderText, Plan.evaluator, List.map_map]
  rfl

theorem readSlot_text (i : InputBinding) (slot : RecurrentSlot) :
    (readSlot i slot).text = Header.readBuffer i slot := by
  apply String.toList_inj.mp
  simp [readSlot, Slot.text, IndexExpr.text, IndexExpr.isSum, Header.readBuffer]

theorem target_text (o : OutputBinding) : (p.target o).text = Header.realizeTarget p o := by
  unfold Plan.target Header.realizeTarget
  cases o.feeds with
  | none => rfl
  | some name =>
    apply String.toList_inj.mp
    simp [Target.text, Slot.text, IndexExpr.text, IndexExpr.isSum]

theorem evaluateText_evaluator : p.evaluator.evaluateText = Header.evaluate p := by
  simp only [Evaluator.evaluateText, Plan.evaluator, List.map_map, Function.comp_def,
    readSlot_text, target_text]
  rfl

end Texts

/-! ### Running them -/

/-- The slots of every history, by the name of its member. -/
abbrev Histories (V : Type) := String → List V

section Machine

variable {V : Type}

def Histories.set (h : Histories V) (name : String) (slots : List V) : Histories V :=
  fun x => if x = name then slots else h x

/-- Declare parameters in order, each with the argument at its position. -/
def Env.bindAll : Env V → List String → List V → Except Trap (Env V)
  | env, [], [] => .ok env
  | env, name :: names, v :: vs => do
    let env ← env.declare name v
    env.bindAll names vs
  | _, _, _ => .error .argumentCount

def IndexExpr.eval (timestep : Except Trap Int) : IndexExpr → Except Trap Int
  | .timestep => timestep
  | .sub e n => (e.eval timestep).map (· - n)
  | .add e n => (e.eval timestep).map (· + n)
  | .rem e n => (e.eval timestep).map (Int.tmod · n)

/-- The position of a slot in its history. -/
def Slot.locate (timestep : Except Trap Int) (h : Histories V) (s : Slot) :
    Except Trap Nat := do
  let i ← s.index.eval timestep
  if 0 ≤ i ∧ i < (h s.history).length then return i.toNat
  else throw (.outOfRange s.history i)

def Slot.load (timestep : Except Trap Int) (h : Histories V) (s : Slot) : Except Trap V := do
  let j ← s.locate timestep h
  match (h s.history)[j]? with
  | some v => return v
  | none => throw (.outOfRange s.history j)

/-- The histories, and what the parameters of `Evaluate` for its outputs hold. -/
structure Memory (V : Type) where
  histories : Histories V
  outputs : Env V

/-- Store one result. An output of that name must be a parameter. -/
def Target.store (timestep : Except Trap Int) (outputs : List String) (m : Memory V) (v : V) :
    Target → Except Trap (Memory V)
  | .parameter name =>
    if name ∈ outputs then .ok { m with outputs := m.outputs.set name v }
    else .error (.unbound name)
  | .slot s => do
    let j ← s.locate timestep m.histories
    return { m with
      histories := m.histories.set s.history ((m.histories s.history).set j v) }

/-- Store the results, each to the target at its position. -/
def realize (timestep : Except Trap Int) (outputs : List String) :
    Memory V → List Target → List V → Except Trap (Memory V)
  | m, [], [] => .ok m
  | m, target :: targets, v :: vs => do
    let m ← target.store timestep outputs m v
    realize timestep outputs m targets vs
  | _, _, _ => .error .argumentCount

/-- What can be seen of one step. -/
structure Record (V : Type) where
  /-- The values of the inputs, as `create_eval_graph` has them. -/
  inputs : Env V
  /-- The values of all names at the end of the pipeline. -/
  env : Env V
  /-- What is stored to the parameters of `Evaluate`. -/
  outputs : Env V

namespace Evaluator

/-- The histories after `init`, with buffers that hold `fresh`. -/
def start (e : Evaluator) (fresh : String → Nat → V) : Histories V :=
  e.allocations.foldl
    (fun h a => h.set a.history ((List.range a.length).map (fresh a.history))) fun _ => []

def timestep (e : Evaluator) (t : Nat) : Except Trap Int :=
  if e.timed then .ok t else .error (.unbound "timestep")

/-- The values of the inputs at step `t`, as `Evaluate` passes them to `create_eval_graph`. -/
def supply (e : Evaluator) (immediate : String → V) (t : Nat) (h : Histories V) :
    Except Trap (Env V) := do
  let given ← Env.empty.bindAll e.inputs (e.inputs.map immediate)
  let slots ← e.bindings.mapM fun b => b.2.load (e.timestep t) h
  -- A step sets each history parameter once, and none of them has the name of an input.
  let scope ← given.bindAll (e.bindings.map Prod.fst) slots
  let arguments ← e.arguments.mapM scope.read
  Env.empty.bindAll e.parameters arguments

/-- The call of `Evaluate` for step `t`, with the values of the immediate inputs. -/
def step (R : Runtime V) (e : Evaluator) (immediate : String → V) (t : Nat) (h : Histories V) :
    Except Trap (Record V × Histories V) := do
  let inputs ← e.supply immediate t h
  let env ← execAll R inputs e.body
  let values ← e.results.mapM fun r => env.read r.1
  let m ← realize (e.timestep t) (e.outputs.map Prod.snd) ⟨h, Env.empty⟩ e.targets values
  return (⟨inputs, env, m.outputs⟩, m.histories)

/-- The first `T` steps, and the histories after them. -/
def run (R : Runtime V) (e : Evaluator) (fresh : String → Nat → V)
    (immediate : Nat → String → V) : Nat → Except Trap (List (Record V) × Histories V)
  | 0 => .ok ([], e.start fresh)
  | T + 1 => do
    let (records, h) ← e.run R fresh immediate T
    let (record, h) ← e.step R (immediate T) T h
    return (records ++ [record], h)

end Evaluator

end Machine

end EvaluatorGen
