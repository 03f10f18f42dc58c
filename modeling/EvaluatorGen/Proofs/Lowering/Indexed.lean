import EvaluatorGen.Lowering.Walk
import EvaluatorGen.Proofs.Consumers
import EvaluatorGen.Proofs.Lowering.Rules
import Mathlib.Data.List.Basic

/-!
Lowering with lists that are read by index.

The rules of `Fragment` take the operands of a node apart by pattern, and a count that is missing
is read as none. Here the same rules ask for the number of operands first and then read operand
0, operand 1 and the count at the node's own position by index, and counts are raised by index. A
read outside of its list ends the run.

1. `consumerCounts_eq`: no read is out of range while consumers are counted.
2. `ofNode_eq`: none is in the rule of a node that stands at a position with a count.
3. `lower_eq`: so none is while a graph is lowered, and the outcome is that of `Graph.lower`.
-/
namespace EvaluatorGen

/-- Why an indexed run ends early. -/
inductive Halt where
  | refused (e : CompileError)
  | outOfRange (index length : Nat)
  deriving DecidableEq, Repr

namespace Indexed

/-- The entry of a list at an index. -/
def entry {α : Type} (xs : List α) (index : Nat) : Except Halt α :=
  match xs[index]? with
  | some x => .ok x
  | none => .error (.outOfRange index xs.length)

/-- A step that reads nothing by index. -/
def ask {α : Type} (x : Except CompileError α) : Except Halt α := x.mapError .refused

/-- A condition on the graph. -/
def require (c : Prop) [Decidable c] (e : CompileError) : Except Halt Unit :=
  if c then .ok () else .error (.refused e)

/-! ### Consumers -/

/-- One operand more, after those in `seen`. -/
def countOperand (bound : Nat) (state : List Nat × List Nat) (o : UInt64) :
    Except Halt (List Nat × List Nat) :=
  if o.toNat < bound ∧ o.toNat ∉ state.2 then do
    let count ← entry state.1 o.toNat
    return (state.1.set o.toNat (count + 1), state.2 ++ [o.toNat])
  else return state

def countNode (bound : Nat) (counts : List Nat) (n : Node) : Except Halt (List Nat) := do
  let (counts, _) ← n.operands.foldlM (countOperand bound) (counts, [])
  return counts

def consumerCounts (g : Graph) : Except Halt (List Nat) :=
  g.nodes.foldlM (countNode g.size) (List.replicate g.size 0)

/-! ### Rules -/

section

variable (s : Scope) (n : Node)

/-- The operand of a node at an index, and its symbol. -/
def operand (index : Nat) : Except Halt (Node × String) := do
  let id ← entry n.operands index
  ask (s.operand n id)

/-- Whether several nodes consume the one at a position. -/
def shared (consumers : List Nat) (id : Nat) : Except Halt Bool := do
  let count ← entry consumers id
  return decide (1 < count)

/-- The name of the input that operand 1 of a recurrent output must be. -/
def feedbackName : Except Halt String := do
  let (target, _) ← operand s n 1
  if target.kind = .input ∧ target.recurrenceOffset.isSome then
    return Identifier.ofText target.displayName
  else do
    let id ← entry n.operands 1
    ask (.error (.unmatchedFeedback n.uid id))

/-- The input that an output feeds, if it is recurrent. -/
def feeds : Except Halt (Option String) :=
  if n.recurrenceOffset.isSome then some <$> feedbackName s n else return none

def ofOutput : Except Halt Fragment := do
  require (n.operands.length = outputArity n.recurrenceOffset.isSome)
    (.malformedOutput n.uid n.recurrenceOffset.isSome n.operands.length)
  let name := Identifier.ofText n.displayName
  require (s.outputs.any (·.name == name) = false) (.duplicateName n.uid .output name)
  let element ← ask n.sourceType
  let _ ← ask n.bufferDims
  let (_, value) ← operand s n 0
  return { outputs := [{ name, uid := n.uid, value, element, feeds := ← feeds s n }] }

/-- The rule of an operation on a node with the right number of operands. The count is read before
    the node claims its identifiers, so it is read for a node that is refused then as well. -/
def ofOperands (consumers : List Nat) (id : Nat) : Operation → Except Halt Fragment
  | .binary op => do
    let (_, lhs) ← operand s n 0
    let (_, rhs) ← operand s n 1
    return Fragment.stage n (.call op.callee [.ref lhs, .ref rhs]) (← shared consumers id)
  | .unary op => do
    let (_, arg) ← operand s n 0
    let callee ← ask (Fragment.unaryCallee n op)
    return Fragment.stage n (.call callee [.ref arg]) false
  | .times => do
    let (vector, vectorSymbol) ← operand s n 0
    ask vector.requireVector
    let (matrix, matrixSymbol) ← operand s n 1
    let (rows, cols) ← ask matrix.matrixDims
    let callee : Callee :=
      if n.quantization.isSome then .vectorByMatrixTimesQuantized else .vectorByMatrixTimes
    return Fragment.stage n
      (.call callee [.ref vectorSymbol, .ref matrixSymbol, .ofSize rows, .ofSize cols])
      (← shared consumers id)
  | .slice first last => do
    let (vector, arg) ← operand s n 0
    let _ ← ask (vector.vectorLength .sliceOperand)
    return Fragment.stage n (.call .slice [.ref arg, .int first, .int last]) false
  | .splice => do
    let (front, frontSymbol) ← operand s n 0
    let (back, backSymbol) ← operand s n 1
    let frontLength ← ask (front.vectorLength .spliceOperands)
    let backLength ← ask (back.vectorLength .spliceOperands)
    return Fragment.stage n
      (.call .splice [.ref frontSymbol, .ref backSymbol, .ofSize frontLength, .ofSize backLength])
      false

def ofOperator (consumers : List Nat) (id : Nat) : Except Halt Fragment := do
  let op ← ask (Operation.ofNode n)
  require (n.operands.length = op.arity)
    (.operatorArity n.uid op.name op.arity n.operands.length)
  ofOperands s n consumers id op

def ofMarker : Except Halt Fragment := do
  require (n.operands.length = 1) (.operatorArity n.uid "Quantize" 1 n.operands.length)
  match n.quantization with
  | none => ask (.error (.missingAttribute n.uid "Quantize" "quantized"))
  | some q =>
    let (_, arg) ← operand s n 0
    let dims ← ask n.quantizeDims
    let source ← ask n.sourceType
    let target ← ask n.resolvedType
    let symbol := Identifier.ofText n.uid
    let args := .ref arg :: dims.map Expr.ofSize ++ [.int q.reservedBits.toUInt64.toInt64]
    return {
      symbol := some symbol
      claims := [symbol]
      body := [.funcGroup symbol (.call (.quantize source target) args)] }

/-- The contribution of the node at a position. -/
def ofNode (consumers : List Nat) (id : Nat) : Except Halt Fragment :=
  match n.kind with
  | .parameter | .constant => ask (Fragment.ofLeaf n)
  | .input => ask (Fragment.ofInput s n)
  | .output => ofOutput s n
  | .operator _ _ => ofOperator s n consumers id
  | .quantizeMarker => ofMarker s n

end

/-! ### The walk -/

/-- Visit a node at its position. -/
def visit (consumers : List Nat) (d : Draft) (next : Node × Nat) : Except Halt Draft := do
  let f ← ofNode d.scope next.1 consumers next.2
  let reserved ← ask (Draft.claim next.1.uid d.reserved f.claims)
  return d.add next.1 f reserved

def lower (g : Graph) (naming : Naming) : Except Halt Plan := do
  let consumers ← consumerCounts g
  let draft ← g.nodes.zipIdx.foldlM (visit consumers) {}
  ask (draft.finish naming)

/-! ### Reads in range -/

theorem entry_of_lt {α : Type} {xs : List α} {i : Nat} (h : i < xs.length) :
    entry xs i = .ok xs[i] := by
  rw [entry, List.getElem?_eq_getElem h]

theorem ask_pure {α : Type} (a : α) : ask (pure a) = pure a := rfl

theorem ask_bind {α β : Type} (x : Except CompileError α) (f : α → Except CompileError β) :
    ask (x >>= f) = ask x >>= fun a => ask (f a) := by
  cases x <;> rfl

theorem ask_ite_error {α : Type} {c : Bool} {e : CompileError} {k : Unit → Except CompileError α} :
    ask (if c then .error e >>= k else k ()) = require (c = false) e >>= fun _ => ask (k ()) := by
  cases c <;> rfl

theorem require_of {c : Prop} [Decidable c] {e : CompileError} (h : c) : require c e = .ok () :=
  if_pos h

theorem require_of_not {c : Prop} [Decidable c] {e : CompileError} (h : ¬ c) :
    require c e = .error (.refused e) :=
  if_neg h

/-! ### Counting in range -/

theorem countOperands_eq {bound : Nat} (os : List UInt64) {counts : List Nat} (seen : List Nat)
    (h : counts.length = bound) :
    ∃ new, os.foldl (fun seen o => if o.toNat < bound ∧ o.toNat ∉ seen then seen ++ [o.toNat]
        else seen) seen = seen ++ new ∧
      os.foldlM (countOperand bound) (counts, seen) =
        .ok (new.foldl Graph.bump counts, seen ++ new) := by
  induction os generalizing counts seen with
  | nil => exact ⟨[], (List.append_nil _).symm, by rw [List.append_nil]; rfl⟩
  | cons o os ih =>
    rw [List.foldl_cons, List.foldlM_cons]
    by_cases ho : o.toNat < bound ∧ o.toNat ∉ seen
    · have hlt : o.toNat < counts.length := h ▸ ho.1
      have hbump : Graph.bump counts o.toNat = counts.set o.toNat (counts[o.toNat] + 1) := by
        rw [Graph.bump, List.modify_eq_set, List.getElem?_eq_getElem hlt, Option.getD_some]
      have hstep : countOperand bound (counts, seen) o =
          .ok (Graph.bump counts o.toNat, seen ++ [o.toNat]) := by
        rw [countOperand, if_pos ho, entry_of_lt hlt, hbump]
        rfl
      have hlength : (Graph.bump counts o.toNat).length = bound := by
        rw [hbump, List.length_set, h]
      obtain ⟨new, hseen, hcounts⟩ := ih (seen ++ [o.toNat]) hlength
      refine ⟨o.toNat :: new, ?_, ?_⟩
      · rw [if_pos ho, hseen, List.append_assoc, List.singleton_append]
      · rw [hstep]
        show os.foldlM (countOperand bound) (Graph.bump counts o.toNat, seen ++ [o.toNat]) = _
        rw [hcounts, List.append_assoc, List.singleton_append]
        rfl
    · have hstep : countOperand bound (counts, seen) o = .ok (counts, seen) := by
        rw [countOperand, if_neg ho]
        rfl
      rw [if_neg ho, hstep]
      exact ih seen h

theorem length_foldl_bump (ids counts : List Nat) :
    (ids.foldl Graph.bump counts).length = counts.length := by
  induction ids generalizing counts with
  | nil => rfl
  | cons id ids ih => rw [List.foldl_cons, ih, Graph.bump, List.length_modify]

theorem countNode_eq {bound : Nat} {counts : List Nat} (n : Node) (h : counts.length = bound) :
    countNode bound counts n = .ok ((Graph.distinctOperands bound n).foldl Graph.bump counts) := by
  obtain ⟨new, hseen, hcounts⟩ := countOperands_eq n.operands [] h
  rw [List.nil_append] at hseen hcounts
  rw [countNode, hcounts, Graph.distinctOperands, hseen]
  rfl

theorem countNodes_eq {bound : Nat} (ns : List Node) {counts : List Nat}
    (h : counts.length = bound) :
    ns.foldlM (countNode bound) counts =
        .ok (ns.foldl (fun counts n => (Graph.distinctOperands bound n).foldl Graph.bump counts)
          counts) ∧
      (ns.foldl (fun counts n => (Graph.distinctOperands bound n).foldl Graph.bump counts)
        counts).length = bound := by
  induction ns generalizing counts with
  | nil => exact ⟨rfl, h⟩
  | cons n ns ih =>
    rw [List.foldlM_cons, countNode_eq n h, List.foldl_cons]
    exact ih ((length_foldl_bump _ _).trans h)

theorem consumerCounts_eq (g : Graph) :
    consumerCounts g = .ok g.consumerCounts ∧ g.consumerCounts.length = g.size :=
  countNodes_eq g.nodes List.length_replicate

/-! ### Rules in range -/

section

variable (s : Scope) (n : Node)

theorem operand_zero {x : UInt64} {os : List UInt64} (h : n.operands = x :: os) :
    operand s n 0 = ask (s.operand n x) := by
  rw [operand, h]
  rfl

theorem operand_one {x y : UInt64} {os : List UInt64} (h : n.operands = x :: y :: os) :
    operand s n 1 = ask (s.operand n y) := by
  rw [operand, h]
  rfl

theorem shared_eq {consumers : List Nat} {id : Nat} (h : id < consumers.length) :
    shared consumers id = .ok (decide (1 < consumers.getD id 0)) := by
  rw [shared, entry_of_lt h, List.getD_eq_getElem?_getD, List.getElem?_eq_getElem h]
  rfl

theorem feedbackName_eq {x y : UInt64} {os : List UInt64} (h : n.operands = x :: y :: os) :
    feedbackName s n = ask (Fragment.feedbackName s n y) := by
  unfold feedbackName Fragment.feedbackName
  rw [operand_one s n h, h]
  cases s.operand n y with
  | error e => rfl
  | ok target =>
    show (if target.1.kind = .input ∧ target.1.recurrenceOffset.isSome then _ else _) =
      ask (if target.1.kind = .input ∧ target.1.recurrenceOffset.isSome then _ else _)
    split <;> rfl

/-- An output with the wrong number of operands is refused; else operand 0 is there, and operand 1
    if the output is recurrent. -/
theorem outputOperands_cases :
    n.operands.length ≠ outputArity n.recurrenceOffset.isSome ∧
        Fragment.outputOperands n =
          .error (.malformedOutput n.uid n.recurrenceOffset.isSome n.operands.length) ∨
      n.operands.length = outputArity n.recurrenceOffset.isSome ∧
        ∃ x os target, n.operands = x :: os ∧ Fragment.outputOperands n = .ok (x, target) ∧
          feeds s n = ask (target.mapM (Fragment.feedbackName s n)) := by
  unfold Fragment.outputOperands feeds
  split
  · rename_i x hrecurrent hop
    rw [hrecurrent, hop]
    exact .inr ⟨rfl, x, [], none, rfl, rfl, rfl⟩
  · rename_i x y hrecurrent hop
    have hfeeds : feedbackName s n = ask (Fragment.feedbackName s n y) := feedbackName_eq s n hop
    rw [hrecurrent, hop, if_pos rfl, hfeeds]
    refine .inr ⟨rfl, x, [y], some y, rfl, rfl, ?_⟩
    rw [Option.mapM_some]
    cases Fragment.feedbackName s n y <;> rfl
  · rename_i hone htwo
    refine .inl ⟨?_, rfl⟩
    intro harity
    cases hrecurrent : n.recurrenceOffset.isSome with
    | false =>
      rw [hrecurrent] at harity hone
      obtain ⟨x, hop⟩ := List.length_eq_one_iff.mp harity
      exact hone x rfl hop
    | true =>
      rw [hrecurrent] at harity htwo
      obtain ⟨x, y, hop⟩ := List.length_eq_two.mp harity
      exact htwo x y rfl hop

theorem ofOutput_eq : ofOutput s n = ask (Fragment.ofOutput s n) := by
  unfold ofOutput Fragment.ofOutput
  rcases outputOperands_cases s n with
    ⟨harity, hmodel⟩ | ⟨harity, x, os, target, hop, hmodel, hfeeds⟩
  · rw [require_of_not harity, hmodel]
    rfl
  · rw [require_of harity, hmodel, operand_zero s n hop, hfeeds]
    simp only [ok_bind, ask_bind, ask_pure, ask_ite_error]

theorem ofMarker_eq : ofMarker s n = ask (Fragment.ofMarker s n) := by
  unfold ofMarker Fragment.ofMarker Fragment.markerOperand
  by_cases harity : n.operands.length = 1
  · obtain ⟨x, hop⟩ := List.length_eq_one_iff.mp harity
    rw [require_of harity, operand_zero s n hop, hop]
    cases n.quantization with
    | none => rfl
    | some q => simp only [ok_bind, ask_bind, ask_pure]
  · rw [require_of_not harity]
    rcases hop : n.operands with _ | ⟨x, _ | ⟨y, os⟩⟩
    · rfl
    · rw [hop] at harity
      exact absurd rfl harity
    · rfl

variable {consumers : List Nat} {id : Nat}

theorem ofOperands_eq (op : Operation) (harity : n.operands.length = op.arity)
    (hid : id < consumers.length) :
    ofOperands s n consumers id op =
      ask (Fragment.ofOperation s n (decide (1 < consumers.getD id 0)) op) := by
  unfold ofOperands Fragment.ofOperation
  cases op with
  | binary op =>
    obtain ⟨x, y, hop⟩ := List.length_eq_two.mp harity
    rw [operand_zero s n hop, operand_one s n hop, shared_eq hid, hop]
    simp only [Fragment.ofBinary, ok_bind, ask_bind, ask_pure]
  | unary op =>
    obtain ⟨x, hop⟩ := List.length_eq_one_iff.mp harity
    rw [operand_zero s n hop, hop]
    simp only [Fragment.ofUnary, ask_bind, ask_pure]
  | times =>
    obtain ⟨x, w, hop⟩ := List.length_eq_two.mp harity
    rw [operand_zero s n hop, operand_one s n hop, shared_eq hid, hop]
    simp only [Fragment.ofTimes, ok_bind, ask_bind, ask_pure]
  | slice first last =>
    obtain ⟨x, hop⟩ := List.length_eq_one_iff.mp harity
    rw [operand_zero s n hop, hop]
    simp only [Fragment.ofSlice, ask_bind, ask_pure]
  | splice =>
    obtain ⟨x, y, hop⟩ := List.length_eq_two.mp harity
    rw [operand_zero s n hop, operand_one s n hop, hop]
    simp only [Fragment.ofSplice, ask_bind, ask_pure]

theorem ofOperation_of_arity {shared : Bool} (op : Operation)
    (h : n.operands.length ≠ op.arity) :
    Fragment.ofOperation s n shared op =
      .error (.operatorArity n.uid op.name op.arity n.operands.length) := by
  unfold Fragment.ofOperation
  split
  · rename_i hop
    exact absurd (congrArg List.length hop) h
  · rename_i hop
    exact absurd (congrArg List.length hop) h
  · rename_i hop
    exact absurd (congrArg List.length hop) h
  · rename_i hop
    exact absurd (congrArg List.length hop) h
  · rename_i hop
    exact absurd (congrArg List.length hop) h
  · rfl

theorem ofOperator_eq (hid : id < consumers.length) :
    ofOperator s n consumers id =
      ask (Fragment.ofOperator s n (decide (1 < consumers.getD id 0))) := by
  rw [ofOperator, Fragment.ofOperator, ask_bind]
  refine bind_congr fun op => ?_
  by_cases harity : n.operands.length = op.arity
  · rw [require_of harity]
    exact ofOperands_eq s n op harity hid
  · rw [require_of_not harity, ofOperation_of_arity s n op harity]
    rfl

theorem ofNode_eq (hid : id < consumers.length) :
    ofNode s n consumers id = ask (Fragment.ofNode s (decide (1 < consumers.getD id 0)) n) := by
  unfold ofNode Fragment.ofNode
  cases n.kind with
  | parameter => rfl
  | constant => rfl
  | input => rfl
  | output => exact ofOutput_eq s n
  | operator name attributes => exact ofOperator_eq s n hid
  | quantizeMarker => exact ofMarker_eq s n

end

/-! ### The walk in range -/

theorem visit_eq {consumers : List Nat} (d : Draft) (n : Node)
    (h : d.scope.lowered.length < consumers.length) :
    visit consumers d (n, d.scope.lowered.length) = ask (d.visit consumers n) := by
  simp only [visit, Draft.visit, ask_bind, ask_pure, ofNode_eq d.scope n h]

theorem length_visit {consumers : List Nat} {d d' : Draft} {n : Node}
    (h : d.visit consumers n = .ok d') :
    d'.scope.lowered.length = d.scope.lowered.length + 1 := by
  obtain ⟨f, -, h⟩ := bind_eq_ok_iff.mp h
  obtain ⟨reserved, -, h⟩ := bind_eq_ok_iff.mp h
  rw [← pure_eq_ok_iff.mp h, Draft.add, List.length_append, List.length_singleton]

/-- The positions of the nodes that are left are the counts that are left. -/
theorem walk_eq {consumers : List Nat} (ns : List Node) (d : Draft)
    (h : d.scope.lowered.length + ns.length ≤ consumers.length) :
    (ns.zipIdx d.scope.lowered.length).foldlM (visit consumers) d =
      ask (ns.foldlM (Draft.visit consumers) d) := by
  induction ns generalizing d with
  | nil => rfl
  | cons n ns ih =>
    rw [List.length_cons] at h
    rw [List.zipIdx_cons, List.foldlM_cons, List.foldlM_cons, ask_bind, visit_eq d n (by omega)]
    cases hvisit : d.visit consumers n with
    | error e => rfl
    | ok d' =>
      have hlength := length_visit hvisit
      rw [← hlength]
      exact ih d' (by omega)

/-- Lowering reads no list outside of its range, whatever the graph. -/
theorem lower_eq (g : Graph) (naming : Naming) : lower g naming = ask (g.lower naming) := by
  obtain ⟨hcounts, hlength⟩ := consumerCounts_eq g
  have hwalk : g.nodes.zipIdx.foldlM (visit g.consumerCounts) {} = ask g.walk :=
    walk_eq g.nodes {} (by rw [hlength]; exact Nat.le_of_eq (Nat.zero_add _))
  rw [lower, hcounts, ok_bind, hwalk, Graph.lower, ask_bind]

end Indexed

end EvaluatorGen
