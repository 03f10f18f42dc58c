import EvaluatorGen.Header.Code
import EvaluatorGen.Proofs.Identifiers

/-!
Names that a pipeline binds and functions that it calls.

A pipeline calls functions of the runtime library by their unqualified names, in a routine that
binds names of its own. A name that is both is captured: the call finds the stage or the parameter
and not the function. The functions are not among the identifiers that lowering keeps, so nothing
rules this out.

1. `planOf_callees`: a pipeline calls one function for each operator and marker, and no other.
2. `symbol_of_bound`: of the names that it binds, only a symbol can be the name of a function.
3. `captures_iff`: so a name is captured exactly if it is the symbol of one node and the function of
   another, or of the same. `not_captureFree`: such graphs are lowered.
-/
namespace EvaluatorGen

/-! ### Functions -/

/-- The name under which a runtime function is looked up: what is printed for it, up to the
    template arguments. -/
def Callee.lookupName (c : Callee) : String :=
  String.ofList ((Header.calleeName c).toList.takeWhile (· ≠ '<'))

mutual

/-- The functions that an expression calls, from the outside in. -/
def Expr.callees : Expr → List Callee
  | .ref _ | .int _ => []
  | .call callee args => callee :: Expr.calleesOf args

def Expr.calleesOf : List Expr → List Callee
  | [] => []
  | e :: es => e.callees ++ Expr.calleesOf es

end

/-- The functions that a statement calls. -/
def Stmt.callees : Stmt → List Callee
  | .func _ (.expr value) => value.callees
  | .funcGroup _ value => value.callees
  | _ => []

namespace Plan

/-- The names that the pipeline routine binds: its parameters, and what its statements declare. -/
def boundNames (p : Plan) : List String :=
  p.inputs.map InputBinding.name ++ p.body.filterMap Stmt.declared?

/-- The names of the runtime functions that the pipeline calls. -/
def calledNames (p : Plan) : List String :=
  (p.body.flatMap Stmt.callees).map Callee.lookupName

/-- Calls of the runtime function `name` find something of the pipeline's own instead. -/
structure Captures (p : Plan) (name : String) : Prop where
  bound : name ∈ p.boundNames
  called : name ∈ p.calledNames

end Plan

namespace Callee

/-- The functions have names that start with a capital letter. -/
theorem lookupName_head (c : Callee) : c.lookupName.toList.head?.any Char.isUpper := by
  cases c with
  | sigmoid type => cases type <;> decide +kernel
  | quantize source target => cases source <;> cases target <;> decide +kernel
  | _ => decide +kernel

theorem lookupName_ne_append (c : Callee) {l : Char} (hl : l.isUpper = false) (ls : List Char)
    (s : String) : c.lookupName ≠ String.ofList (l :: ls) ++ s := by
  intro heq
  have hhead := c.lookupName_head
  rw [heq, String.toList_append, String.toList_ofList, List.cons_append, List.head?_cons] at hhead
  exact absurd hhead (by simp [hl])

end Callee

namespace Graph

variable {g : Graph} {naming : Naming} {n : Node} {name : String}

/-! ### Calls -/

theorem calleesOf_eq_nil {es : List Expr} (h : ∀ e ∈ es, e.callees = []) :
    Expr.calleesOf es = [] := by
  induction es with
  | nil => rw [Expr.calleesOf]
  | cons e es ih =>
    rw [List.forall_mem_cons] at h
    rw [Expr.calleesOf, h.1, ih h.2, List.append_nil]

/-- The arguments of a call are names and numbers, so it is the only one. -/
theorem callExpr_callees (c : Callee) : (g.callExpr n c).callees = [c] := by
  rw [callExpr, Expr.callees, calleesOf_eq_nil]
  intro e he
  rcases List.mem_append.mp he with he | he
  · obtain ⟨o, -, rfl⟩ := List.mem_map.mp he
    rw [Expr.callees]
  · obtain ⟨i, -, rfl⟩ := List.mem_map.mp he
    rw [Expr.callees]

theorem statements_callees (id : Nat) :
    (g.statements id n).flatMap Stmt.callees = n.callee?.toList := by
  cases hk : n.kind with
  | parameter | constant =>
    simp only [statements, Node.leafStatements, Node.callee?, hk]
    cases n.isQuantized <;> rfl
  | input | output => simp [statements, Node.callee?, hk]
  | operator op a =>
    cases hc : n.callee? with
    | none => simp [statements, hk, hc]
    | some c =>
      simp only [statements, hk, hc]
      cases n.isArithmetic && g.isShared id <;> simp [Stmt.callees, callExpr_callees]
  | quantizeMarker =>
    cases hc : n.callee? with
    | none => simp [statements, hk, hc]
    | some c => simp [statements, hk, hc, Stmt.callees, callExpr_callees]

theorem planOf_callees :
    (g.planOf naming).body.flatMap Stmt.callees = g.nodes.flatMap fun n => n.callee?.toList := by
  rw [planOf, List.flatMap_assoc]
  simp only [statements_callees]
  exact flatMap_zipIdx_nodes (fun n => n.callee?.toList) g.nodes

theorem mem_calledNames :
    name ∈ (g.planOf naming).calledNames ↔
      ∃ n ∈ g.nodes, ∃ c, n.callee? = some c ∧ c.lookupName = name := by
  rw [Plan.calledNames, planOf_callees]
  simp only [List.mem_map, List.mem_flatMap, Option.mem_toList]
  refine ⟨?_, ?_⟩
  · rintro ⟨c, ⟨n, hn, hc⟩, rfl⟩
    exact ⟨n, hn, c, hc, rfl⟩
  · rintro ⟨n, hn, c, hc, rfl⟩
    exact ⟨c, ⟨n, hn, hc⟩, rfl⟩

/-! ### Bound names -/

theorem mem_boundNames (h : g.Acceptable) :
    name ∈ (g.planOf naming).boundNames ↔
      ∃ n ∈ g.nodes, n.isInput ∧ n.symbol = name ∨ name ∈ n.declared := by
  rw [Plan.boundNames, bodyNames_eq h, List.mem_append, inputNames_perm.mem_iff]
  simp only [List.mem_flatMap, ← exists_or, ← and_or_left]
  refine exists_congr fun n => and_congr_right fun _ => or_congr_left ?_
  cases n.isInput with
  | false => simp
  | true => simp [eq_comm]

theorem symbol_mem_bound (h : n.kind ≠ .output) :
    n.isInput ∧ n.symbol = n.symbol ∨ n.symbol ∈ n.declared := by
  unfold Node.declared Node.isInput
  cases hk : n.kind with
  | output => exact absurd hk h
  | parameter | constant => cases n.isQuantized <;> simp
  | input | operator _ _ | quantizeMarker => simp

/-- A buffer and the stages of a quantized leaf have names that start with a small letter. -/
theorem symbol_of_bound (c : Callee)
    (h : n.isInput ∧ n.symbol = c.lookupName ∨ c.lookupName ∈ n.declared) :
    n.kind ≠ .output ∧ n.symbol = c.lookupName := by
  have hbuffer : c.lookupName ≠ Identifier.buffer n.symbol :=
    c.lookupName_ne_append (l := 'b') rfl ['_'] _
  have hview : c.lookupName ≠ Identifier.viewStage n.symbol :=
    c.lookupName_ne_append (l := 'f') rfl ['_'] _
  have hstep : c.lookupName ≠ Identifier.stepStage n.symbol :=
    c.lookupName_ne_append (l := 'f') rfl ['_', 's', 't', 'e', 'p', '_'] _
  unfold Node.declared Node.isInput at h
  cases hk : n.kind with
  | output => simp [hk] at h
  | parameter | constant =>
    refine ⟨by simp, ?_⟩
    cases hq : n.isQuantized <;> simpa [hk, hq, hbuffer, hview, hstep, eq_comm] using h
  | input | operator _ _ | quantizeMarker =>
    refine ⟨by simp, ?_⟩
    simpa [hk, eq_comm] using h

theorem captures_iff {plan : Plan} (h : g.lower naming = .ok plan) (name : String) :
    plan.Captures name ↔
      (∃ n ∈ g.nodes, n.kind ≠ .output ∧ n.symbol = name) ∧
      ∃ n ∈ g.nodes, ∃ c, n.callee? = some c ∧ c.lookupName = name := by
  obtain ⟨hacc, rfl⟩ := lower_eq_ok_iff.mp h
  refine ⟨?_, ?_⟩
  · intro hcap
    obtain ⟨n, hn, hb⟩ := (mem_boundNames hacc).mp hcap.bound
    obtain ⟨m, hm, c, hc, rfl⟩ := mem_calledNames.mp hcap.called
    exact ⟨⟨n, hn, symbol_of_bound c hb⟩, m, hm, c, hc, rfl⟩
  · rintro ⟨⟨n, hn, hk, rfl⟩, hcalled⟩
    exact ⟨(mem_boundNames hacc).mpr ⟨n, hn, symbol_mem_bound hk⟩, mem_calledNames.mpr hcalled⟩

/-- A sum whose symbol is the name of the function that computes it. -/
def sumNamedPlus : Graph where
  nodes := [
    { uid := "x", kind := .input, shape := [2] },
    { uid := "Plus", kind := .operator "Plus" {}, shape := [2], operands := [0, 0] },
    { uid := "y", kind := .output, shape := [2], operands := [1] }]

theorem sumNamedPlus_captures :
    sumNamedPlus.lower {} = .ok (sumNamedPlus.planOf {}) ∧
    (sumNamedPlus.planOf {}).Captures "Plus" ∧ ¬ (sumNamedPlus.planOf {}).Captures "Minus" := by
  have hlower : sumNamedPlus.lower {} = .ok (sumNamedPlus.planOf {}) := by decide +kernel
  refine ⟨hlower, (captures_iff hlower "Plus").mpr (by decide +kernel), fun h => ?_⟩
  have hno := (captures_iff hlower "Minus").mp h
  revert hno
  decide +kernel

/-- That no call of a lowered pipeline is captured is not so. -/
theorem not_captureFree :
    ¬ ∀ (g : Graph) (naming : Naming) (plan : Plan), g.lower naming = .ok plan →
      ∀ name, ¬ plan.Captures name := by
  intro h
  have hlower : sumNamedPlus.lower {} = .ok (sumNamedPlus.planOf {}) := by decide +kernel
  exact h _ _ _ hlower "Plus" ⟨by decide +kernel, by decide +kernel⟩

end Graph

end EvaluatorGen
