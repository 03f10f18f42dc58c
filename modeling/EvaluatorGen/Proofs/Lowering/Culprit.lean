import EvaluatorGen.Proofs.Acceptance
import Mathlib.Order.Bounds.Basic

/-!
Which node an error of lowering names.

1. `FailsOnly P x`: every error of the computation `x` satisfies `P`. There is one rule for
   each way to put computations together, and then one lemma for each rule of lowering.
2. `Fragment.ofNode_blames`: the rule of a node names that node, and an operand of it only for
   the shape that a product, a slice or a splice asks of its operands.
3. `Draft.walk_outline`: apart from the statements, a walk does not depend on the numbers of
   consumers. These are the only thing that a node learns from the nodes behind it, so an error
   stays what it is when more nodes follow.
4. `error_names_culprit`: both together, and what the final checks name.
-/
namespace EvaluatorGen

/-! ### Computations whose errors are known -/

/-- Every error of a computation satisfies `P`. -/
def FailsOnly {α : Type} (P : CompileError → Prop) (x : Except CompileError α) : Prop :=
  ∀ e, x = .error e → P e

namespace FailsOnly

variable {α β : Type} {P Q : CompileError → Prop}

theorem ok (a : α) : FailsOnly P (.ok a) := nofun

theorem error {e : CompileError} (h : P e) : FailsOnly P (.error e : Except CompileError α) := by
  intro e' he
  cases he
  exact h

theorem mono {x : Except CompileError α} (hx : FailsOnly P x) (h : ∀ e, P e → Q e) :
    FailsOnly Q x :=
  fun e he => h e (hx e he)

theorem bind {x : Except CompileError α} {f : α → Except CompileError β} (hx : FailsOnly P x)
    (hf : ∀ a, x = .ok a → FailsOnly P (f a)) : FailsOnly P (x >>= f) := by
  cases x with
  | error e => exact error (hx e rfl)
  | ok a => exact hf a rfl

theorem ite {c : Prop} [Decidable c] {x y : Except CompileError α} (hx : c → FailsOnly P x)
    (hy : ¬c → FailsOnly P y) : FailsOnly P (if c then x else y) := by
  by_cases h : c
  · rw [if_pos h]
    exact hx h
  · rw [if_neg h]
    exact hy h

end FailsOnly

/-! ### Errors of a node about itself -/

namespace Node

variable {n : Node}

/-- The error names the node. -/
def Named (n : Node) (e : CompileError) : Prop := e.node = n.uid

theorem unsupported_named {α : Type} (rule : ShapeRule) :
    FailsOnly n.Named (n.unsupported rule : Except CompileError α) :=
  .error rfl

theorem sourceType_named : FailsOnly n.Named n.sourceType := by
  unfold sourceType
  split
  · exact .ok _
  · exact .ok _
  · exact .error rfl

theorem resolvedType_named : FailsOnly n.Named n.resolvedType := by
  unfold resolvedType
  split
  · exact .ite (fun _ => .ok _) fun _ => .ite (fun _ => .ok _) fun _ => .error rfl
  · exact sourceType_named

theorem indexVars_named : FailsOnly n.Named n.indexVars := by
  unfold indexVars
  split
  · exact .ok _
  · exact .ok _
  · exact .ok _
  · exact unsupported_named _

theorem bufferDims_named : FailsOnly n.Named n.bufferDims := by
  unfold bufferDims
  split
  · exact .ok _
  · exact .ok _
  · exact .ok _
  · exact unsupported_named _

theorem quantizeDims_named : FailsOnly n.Named n.quantizeDims := by
  unfold quantizeDims
  split
  · exact .ok _
  · exact .ok _
  · exact .ok _
  · exact unsupported_named _

/-! ### Errors about the shape of an operand -/

/-- The error is that the node violates a rule on shapes. -/
def Misshapen (n : Node) (rule : ShapeRule) (e : CompileError) : Prop :=
  e = .unsupportedShape n.uid n.shape rule

theorem unsupported_misshapen {α : Type} (rule : ShapeRule) :
    FailsOnly (n.Misshapen rule) (n.unsupported rule : Except CompileError α) :=
  .error rfl

theorem requireVector_misshapen : FailsOnly (n.Misshapen .vectorOperand) n.requireVector := by
  unfold requireVector
  split
  · exact .ok _
  · exact .ok _
  · exact unsupported_misshapen _

theorem matrixDims_misshapen : FailsOnly (n.Misshapen .matrixOperand) n.matrixDims := by
  unfold matrixDims
  split
  · exact .ok _
  · exact .ok _
  · exact .ok _
  · exact unsupported_misshapen _

theorem vectorLength_misshapen (rule : ShapeRule) :
    FailsOnly (n.Misshapen rule) (n.vectorLength rule) := by
  unfold vectorLength
  split
  · exact .ok _
  · exact unsupported_misshapen _

end Node

/-- The operator that asks a rule of its operands. The other rules are on the node itself. -/
def ShapeRule.operator? : ShapeRule → Option String
  | .matrixOperand | .vectorOperand => some "Times"
  | .sliceOperand => some "Slice"
  | .spliceOperands => some "Splice"
  | .rankAtMostTwo | .quantizedRankAtMostTwo => none

/-- The node at a position, among those that are lowered. -/
def Scope.node? (s : Scope) (id : UInt64) : Option Node := s.lowered[id.toNat]?.map Lowered.node

/-- The error names the node `n`, or is about the shape of one of its operands, which `n` asks
    for as a product, a slice or a splice. -/
def Node.Blames (n : Node) (operand? : UInt64 → Option Node) (e : CompileError) : Prop :=
  n.Named e ∨
  ∃ name a, n.kind = .operator name a ∧ name ∈ ["Times", "Slice", "Splice"] ∧
    ∃ o ∈ n.operands, ∃ m, operand? o = some m ∧
      ∃ rule : ShapeRule, rule.operator? = some name ∧ m.Misshapen rule e

namespace Fragment

variable {s : Scope} {n : Node}

theorem operand_named {id : UInt64} : FailsOnly n.Named (s.operand n id) := by
  unfold Scope.operand
  split
  · exact .ok _
  · exact .error rfl

theorem operand_node? {id : UInt64} {m : Node} {symbol : String}
    (h : s.operand n id = .ok (m, symbol)) : s.node? id = some m := by
  unfold Scope.operand at h
  split at h
  · rename_i heq
    cases h
    rw [Scope.node?, heq]
    rfl
  · cases h

/-! ### Leaves, inputs, outputs and markers -/

theorem ofLeaf_named : FailsOnly n.Named (ofLeaf n) := by
  unfold ofLeaf
  refine .bind n.sourceType_named fun _ _ => .bind n.resolvedType_named fun _ _ => ?_
  exact .bind n.bufferDims_named fun _ _ => .bind n.indexVars_named fun _ _ => .ok _

theorem ofInput_named : FailsOnly n.Named (ofInput s n) := by
  unfold ofInput
  refine .ite (fun _ => .bind (.error rfl) nofun) fun _ => ?_
  exact .bind n.resolvedType_named fun _ _ => .bind n.bufferDims_named fun _ _ => .ok _

theorem feedbackName_named {id : UInt64} : FailsOnly n.Named (feedbackName s n id) := by
  unfold feedbackName
  exact .bind operand_named fun _ _ => .ite (fun _ => .ok _) fun _ => .error rfl

theorem outputOperands_named : FailsOnly n.Named (outputOperands n) := by
  unfold outputOperands
  split
  · exact .ok _
  · exact .ok _
  · exact .error rfl

theorem feeds_named {target : Option UInt64} :
    FailsOnly n.Named (target.mapM (feedbackName s n)) := by
  cases target with
  | none => exact .ok _
  | some id => exact .bind feedbackName_named fun _ _ => .ok _

theorem ofOutput_named : FailsOnly n.Named (ofOutput s n) := by
  unfold ofOutput
  refine .bind outputOperands_named fun _ _ => ?_
  refine .ite (fun _ => .bind (.error rfl) nofun) fun _ => ?_
  refine .bind n.sourceType_named fun _ _ => .bind n.bufferDims_named fun _ _ => ?_
  exact .bind operand_named fun _ _ => .bind feeds_named fun _ _ => .ok _

theorem markerOperand_named : FailsOnly n.Named (markerOperand n) := by
  unfold markerOperand
  split
  · exact .ok _
  · exact .error rfl
  · exact .error rfl

theorem ofMarker_named : FailsOnly n.Named (ofMarker s n) := by
  unfold ofMarker
  refine .bind markerOperand_named fun _ _ => .bind operand_named fun _ _ => ?_
  refine .bind n.quantizeDims_named fun _ _ => .bind n.sourceType_named fun _ _ => ?_
  exact .bind n.resolvedType_named fun _ _ => .ok _

/-! ### Operators -/

theorem sliceOf_named {a : Attributes} : FailsOnly n.Named (Operation.sliceOf n.uid a) := by
  unfold Operation.sliceOf
  split
  · exact .error rfl
  · exact .error rfl
  · exact .error rfl
  · exact .ok _

theorem operation_named : FailsOnly n.Named (Operation.ofNode n) := by
  unfold Operation.ofNode
  split
  case h_9 => exact sliceOf_named
  case h_11 | h_12 => exact .error rfl
  all_goals exact .ok _

/-- Only the two sigmoids are one operation under two names. -/
theorem kind_of_operation {op : Operation} (h : Operation.ofNode n = .ok op)
    (hu : ∀ u, op ≠ .unary u) : ∃ a, n.kind = .operator op.name a := by
  unfold Operation.ofNode at h
  split at h
  case h_9 a hk =>
    obtain ⟨-, rfl⟩ := Graph.sliceOf_ok_iff.mp h
    exact ⟨a, hk⟩
  case h_11 | h_12 => cases h
  all_goals cases h
  case h_4 | h_5 | h_6 | h_7 => exact absurd rfl (hu _)
  all_goals exact ⟨_, ‹_›⟩

/-- A shape that a product, a slice or a splice asks of an operand. -/
theorem blames_operand {α : Type} {o : UInt64} {m : Node} {symbol : String} {op : Operation}
    {rule : ShapeRule} {x : Except CompileError α} (hop : Operation.ofNode n = .ok op)
    (hrule : rule.operator? = some op.name) (ho : o ∈ n.operands)
    (hm : s.operand n o = .ok (m, symbol)) (hx : FailsOnly (m.Misshapen rule) x) :
    FailsOnly (n.Blames s.node?) x := by
  have hname : op.name ∈ ["Times", "Slice", "Splice"] := by
    generalize op.name = name at hrule
    cases rule <;> simp_all [ShapeRule.operator?]
  have hu : ∀ u, op ≠ .unary u := by
    rintro u rfl
    cases u <;> simp [Operation.name] at hname
  obtain ⟨a, hk⟩ := kind_of_operation hop hu
  intro e he
  exact .inr ⟨op.name, a, hk, hname, o, ho, m, operand_node? hm, rule, hrule, hx e he⟩

theorem ofTimes_blames {shared : Bool} {x w : UInt64} (hop : Operation.ofNode n = .ok .times)
    (ho : n.operands = [x, w]) : FailsOnly (n.Blames s.node?) (ofTimes s n shared x w) := by
  have hx : x ∈ n.operands := by simp [ho]
  have hw : w ∈ n.operands := by simp [ho]
  unfold ofTimes
  refine .bind (operand_named.mono fun _ => .inl) fun v hv => ?_
  refine .bind (blames_operand hop rfl hx hv v.1.requireVector_misshapen) fun _ _ => ?_
  refine .bind (operand_named.mono fun _ => .inl) fun m hm => ?_
  exact .bind (blames_operand hop rfl hw hm m.1.matrixDims_misshapen) fun _ _ => .ok _

theorem ofSlice_blames {first last : Int64} {x : UInt64}
    (hop : Operation.ofNode n = .ok (.slice first last)) (ho : n.operands = [x]) :
    FailsOnly (n.Blames s.node?) (ofSlice s n first last x) := by
  have hx : x ∈ n.operands := by simp [ho]
  unfold ofSlice
  refine .bind (operand_named.mono fun _ => .inl) fun v hv => ?_
  exact .bind (blames_operand hop rfl hx hv (v.1.vectorLength_misshapen _)) fun _ _ => .ok _

theorem ofSplice_blames {x y : UInt64} (hop : Operation.ofNode n = .ok .splice)
    (ho : n.operands = [x, y]) : FailsOnly (n.Blames s.node?) (ofSplice s n x y) := by
  have hx : x ∈ n.operands := by simp [ho]
  have hy : y ∈ n.operands := by simp [ho]
  unfold ofSplice
  refine .bind (operand_named.mono fun _ => .inl) fun v hv => ?_
  refine .bind (operand_named.mono fun _ => .inl) fun w hw => ?_
  refine .bind (blames_operand hop rfl hx hv (v.1.vectorLength_misshapen _)) fun _ _ => ?_
  exact .bind (blames_operand hop rfl hy hw (w.1.vectorLength_misshapen _)) fun _ _ => .ok _

theorem ofBinary_named {shared : Bool} {op : BinaryOp} {x y : UInt64} :
    FailsOnly n.Named (ofBinary s n shared op x y) := by
  unfold ofBinary
  exact .bind operand_named fun _ _ => .bind operand_named fun _ _ => .ok _

theorem ofUnary_named {op : UnaryOp} {x : UInt64} : FailsOnly n.Named (ofUnary s n op x) := by
  have hcallee : FailsOnly n.Named (unaryCallee n op) := by
    cases op with
    | log => exact .ok _
    | tanh => exact .ok _
    | sigmoid => exact .bind n.resolvedType_named fun _ _ => .ok _
  unfold ofUnary
  exact .bind operand_named fun _ _ => .bind hcallee fun _ _ => .ok _

theorem ofOperation_blames {shared : Bool} {op : Operation} (hop : Operation.ofNode n = .ok op) :
    FailsOnly (n.Blames s.node?) (ofOperation s n shared op) := by
  unfold ofOperation
  split
  · exact ofBinary_named.mono fun _ => .inl
  · exact ofUnary_named.mono fun _ => .inl
  · exact ofTimes_blames hop ‹_›
  · exact ofSlice_blames hop ‹_›
  · exact ofSplice_blames hop ‹_›
  · exact .error (.inl rfl)

/-- The rules together: whom the rule of a node blames. -/
theorem ofNode_blames {shared : Bool} : FailsOnly (n.Blames s.node?) (ofNode s shared n) := by
  unfold ofNode
  split
  · exact ofLeaf_named.mono fun _ => .inl
  · exact ofLeaf_named.mono fun _ => .inl
  · exact ofInput_named.mono fun _ => .inl
  · exact ofOutput_named.mono fun _ => .inl
  · exact .bind (operation_named.mono fun _ => .inl) fun _ hop => ofOperation_blames hop
  · exact ofMarker_named.mono fun _ => .inl

end Fragment

/-! ### What a walk takes from the nodes behind -/

/-- Two computations that agree up to a view go on to agree, if their continuations do. -/
theorem view_bind {α β γ δ : Type} {x y : Except CompileError α}
    {f f' : α → Except CompileError β} {v : α → δ} {w : β → γ} (hx : x.map v = y.map v)
    (hf : ∀ a b, v a = v b → (f a).map w = (f' b).map w) :
    (x >>= f).map w = (y >>= f').map w := by
  cases x with
  | error e =>
    cases y with
    | error e' =>
      cases hx
      rfl
    | ok b => cases hx
  | ok a =>
    cases y with
    | error e' => cases hx
    | ok b => exact hf a b (Except.ok.inj hx)

/-- Two computations go on alike from the same start. -/
theorem view_bind_same {α β γ : Type} {x : Except CompileError α}
    {f f' : α → Except CompileError β} {w : β → γ}
    (h : ∀ a, (f a).map w = (f' a).map w) : (x >>= f).map w = (x >>= f').map w := by
  apply view_bind (v := id) rfl
  rintro a b rfl
  exact h a

/-- A contribution without its statements. -/
def Fragment.outline (f : Fragment) : Fragment := { f with body := [] }

/-- A draft without its statements. -/
def Draft.outline (d : Draft) : Draft := { d with body := [] }

theorem Fragment.ofOperation_outline {s : Scope} {n : Node} (b b' : Bool) (op : Operation) :
    (ofOperation s n b op).map outline = (ofOperation s n b' op).map outline := by
  unfold ofOperation
  split
  · exact view_bind_same fun _ => view_bind_same fun _ => rfl
  · rfl
  · refine view_bind_same fun _ => view_bind_same fun _ => view_bind_same fun _ => ?_
    exact view_bind_same fun _ => rfl
  · rfl
  · rfl
  · rfl

theorem Fragment.ofNode_outline {s : Scope} {n : Node} (b b' : Bool) :
    (ofNode s b n).map outline = (ofNode s b' n).map outline := by
  unfold ofNode
  split
  · rfl
  · rfl
  · rfl
  · rfl
  · exact view_bind_same fun op => ofOperation_outline b b' op
  · rfl

namespace Draft

variable {c c' : List Nat} {d d' : Draft}

theorem outline_add {n : Node} {f f' : Fragment} {reserved : List String}
    (hd : d.outline = d'.outline) (hf : f.outline = f'.outline) :
    (d.add n f reserved).outline = (d'.add n f' reserved).outline := by
  simp only [outline, Fragment.outline, Draft.mk.injEq, Fragment.mk.injEq] at hd hf
  obtain ⟨hscope, -, hvalues, -⟩ := hd
  obtain ⟨hsymbol, -, hv, hi, ho, -⟩ := hf
  simp only [outline, add, hscope, hvalues, hsymbol, hv, hi, ho]

theorem visit_outline (n : Node) (h : d.outline = d'.outline) :
    (visit c d n).map outline = (visit c' d' n).map outline := by
  have hscope : d.scope = d'.scope := by injection h
  have hreserved : d.reserved = d'.reserved := by injection h
  unfold visit
  rw [hscope, hreserved]
  refine view_bind (Fragment.ofNode_outline _ _) ?_
  intro f f' hf
  have hclaims : f.claims = f'.claims := by injection hf
  rw [hclaims]
  exact view_bind_same fun reserved => congrArg Except.ok (outline_add h hf)

/-- Apart from the statements, a walk does not depend on the numbers of consumers. -/
theorem walk_outline (ns : List Node) (h : d.outline = d'.outline) :
    (ns.foldlM (visit c) d).map outline = (ns.foldlM (visit c') d').map outline := by
  induction ns generalizing d d' with
  | nil => exact congrArg Except.ok h
  | cons n ns ih =>
    rw [List.foldlM_cons, List.foldlM_cons]
    exact view_bind (visit_outline n h) fun _ _ => ih

theorem walk_error_iff (ns : List Node) {e : CompileError} :
    ns.foldlM (visit c) d = .error e ↔ ns.foldlM (visit c') d = .error e := by
  have h := @walk_outline c c' d d ns rfl
  cases hx : ns.foldlM (visit c) d <;> cases hy : ns.foldlM (visit c') d <;> rw [hx, hy] at h <;>
    simp_all [Except.map]

theorem claim_error {uid : String} {names reserved : List String} :
    FailsOnly (fun e => e.node = uid) (claim uid reserved names) := by
  induction names generalizing reserved with
  | nil => exact .ok _
  | cons name names ih => exact .ite (fun _ => .error rfl) fun _ => ih

theorem visit_blames {n : Node} : FailsOnly (n.Blames d.scope.node?) (visit c d n) := by
  refine .bind Fragment.ofNode_blames fun f _ => ?_
  exact .bind (claim_error.mono fun _ => .inl) fun _ _ => .ok _

end Draft

namespace Graph

variable {g : Graph}

/-- The nodes before position `k`, as a graph of their own. -/
def take (g : Graph) (k : Nat) : Graph := ⟨g.nodes.take k⟩

/-- The graph with more nodes behind its own. -/
def append (g : Graph) (ns : List Node) : Graph := ⟨g.nodes ++ ns⟩

theorem walk_take_error_iff {k : Nat} {e : CompileError} :
    (g.take k).walk = .error e ↔ g.walkTo k = .error e :=
  Draft.walk_error_iff _

theorem walk_append_error {ns : List Node} {e : CompileError} (h : g.walk = .error e) :
    (g.append ns).walk = .error e := by
  have hg : g.nodes.foldlM (Draft.visit (g.append ns).consumerCounts) {} = .error e :=
    (Draft.walk_error_iff _).mp h
  show (g.nodes ++ ns).foldlM (Draft.visit (g.append ns).consumerCounts) {} = .error e
  rw [List.foldlM_append, hg]
  rfl

/-- A walk that fails does so at one node: the nodes before it pass. -/
theorem walkTo_error {k : Nat} {e : CompileError} (hk : k ≤ g.size) (h : g.walkTo k = .error e) :
    ∃ i n d, i < k ∧ g.nodes[i]? = some n ∧ g.walkTo i = .ok d ∧
      Draft.visit g.consumerCounts d n = .error e := by
  induction k with
  | zero => cases h
  | succ k ih =>
    have hn : g.nodes[k]? = some g.nodes[k] := List.getElem?_eq_getElem hk
    cases hd : g.walkTo k with
    | error e' =>
      rw [walkTo_succ hn, hd] at h
      cases h
      obtain ⟨i, n, d, hi, rest⟩ := ih (by omega) hd
      exact ⟨i, n, d, by omega, rest⟩
    | ok d =>
      rw [walkTo_succ hn, hd] at h
      exact ⟨k, g.nodes[k], d, by omega, hn, hd, h⟩

/-- A walk that passes some nodes passes fewer. -/
theorem walkTo_ok_of_le {j k : Nat} (hjk : j ≤ k) {d : Draft} (h : g.walkTo k = .ok d) :
    ∃ d', g.walkTo j = .ok d' := by
  have htake : g.nodes.take k = g.nodes.take j ++ (g.nodes.drop j).take (k - j) := by
    rw [← List.take_add]
    congr 1
    omega
  rw [walkTo, htake, List.foldlM_append, bind_eq_ok_iff] at h
  obtain ⟨d', hd', -⟩ := h
  exact ⟨d', hd'⟩

theorem draft_node? {k : Nat} {o : UInt64} {m : Node} (h : (g.draft k).scope.node? o = some m) :
    g.get? o = some m := by
  rw [Scope.node?, draft_lowered_getElem?] at h
  split at h
  · simpa [get?] using h
  · cases h

theorem blames_of_visit {i : Nat} {n : Node} {d : Draft} {e : CompileError}
    (hn : g.nodes[i]? = some n) (hd : g.walkTo i = .ok d)
    (h : Draft.visit g.consumerCounts d n = .error e) : n.Blames g.get? e := by
  have hi : i ≤ g.size := Nat.le_of_lt (List.getElem?_eq_some_iff.mp hn).1
  obtain ⟨-, rfl⟩ := (walkTo_ok_iff hi).mp hd
  rcases Draft.visit_blames e h with hself | ⟨name, a, hk, hname, o, ho, m, hm, hrule⟩
  · exact .inl hself
  · exact .inr ⟨name, a, hk, hname, o, ho, m, draft_node? hm, hrule⟩

theorem least_failing {i : Nat} {n : Node} {d : Draft} {e : CompileError}
    (hn : g.nodes[i]? = some n) (hd : g.walkTo i = .ok d)
    (h : Draft.visit g.consumerCounts d n = .error e) :
    IsLeast {k | ∃ e', (g.take (k + 1)).walk = .error e'} i := by
  refine ⟨⟨e, ?_⟩, ?_⟩
  · rw [walk_take_error_iff, walkTo_succ hn, hd]
    exact h
  · rintro k ⟨e', he'⟩
    rw [walk_take_error_iff] at he'
    by_contra hlt
    obtain ⟨d', hd'⟩ := walkTo_ok_of_le (show k + 1 ≤ i by omega) hd
    rw [hd'] at he'
    cases he'

end Graph

/-! ### Final checks -/

def CompileError.isUnpaired : CompileError → Bool
  | .unpairedRecurrence _ _ => true
  | _ => false

namespace Draft

variable {d : Draft}

theorem checkFeedback_error :
    FailsOnly (fun e => e.isUnpaired ∧ ∃ i ∈ d.scope.inputs, e.node = i.uid)
      (checkFeedback d.scope) := by
  unfold checkFeedback
  split
  · rename_i i hi
    exact .error ⟨rfl, i, List.mem_of_find?_eq_some hi, rfl⟩
  · exact .ok _

theorem checkOutputNames_error :
    FailsOnly (fun e => ¬ e.isUnpaired ∧ ∃ o ∈ d.scope.outputs, e.node = o.uid)
      (checkOutputNames d.scope) := by
  unfold checkOutputNames
  split
  · rename_i o ho
    exact .error ⟨Bool.false_ne_true, o, List.mem_of_find?_eq_some ho, rfl⟩
  · exact .ok _

theorem checkOutputSymbols_error :
    FailsOnly (fun e => ¬ e.isUnpaired ∧ ∃ o ∈ d.scope.outputs, e.node = o.uid)
      (checkOutputSymbols d) := by
  unfold checkOutputSymbols
  split
  · rename_i o ho
    exact .error ⟨Bool.false_ne_true, o, List.mem_of_find?_eq_some ho, rfl⟩
  · exact .ok _

theorem finish_error {naming : Naming} :
    FailsOnly (fun e => e.isUnpaired ∧ (∃ i ∈ d.scope.inputs, e.node = i.uid) ∨
      ¬ e.isUnpaired ∧ ∃ o ∈ d.scope.outputs, e.node = o.uid) (d.finish naming) := by
  unfold finish
  refine .bind (checkFeedback_error.mono fun _ => .inl) fun _ _ => ?_
  refine .bind (checkOutputNames_error.mono fun _ => .inr) fun _ _ => ?_
  exact .bind (checkOutputSymbols_error.mono fun _ => .inr) fun _ _ => .ok _

end Draft

namespace Graph

theorem error_names_culprit (g : Graph) (naming : Naming) (e : CompileError) :
    (g.walk = .error e →
      (∀ ns, (g.append ns).lower naming = .error e) ∧
      ∃ i n, IsLeast {k | ∃ e', (g.take (k + 1)).walk = .error e'} i ∧
        g.nodes[i]? = some n ∧ n.Blames g.get? e) ∧
    ∀ d, g.walk = .ok d → d.finish naming = .error e →
      ∃ n ∈ g.nodes, n.uid = e.node ∧
        n.kind = if e.isUnpaired then .input else .output := by
  refine ⟨?_, ?_⟩
  · intro h
    refine ⟨fun ns => ?_, ?_⟩
    · rw [lower, walk_append_error h]
      rfl
    · rw [walk_eq_walkTo] at h
      obtain ⟨i, n, d, -, hn, hd, hv⟩ := walkTo_error (Nat.le_refl _) h
      exact ⟨i, n, least_failing hn hd hv, hn, blames_of_visit hn hd hv⟩
  · intro d hd hfin
    rw [walk_eq_walkTo] at hd
    obtain ⟨-, rfl⟩ := (walkTo_ok_iff (Nat.le_refl _)).mp hd
    rcases Draft.finish_error e hfin with ⟨hu, b, hb, hnode⟩ | ⟨hu, b, hb, hnode⟩
    · obtain ⟨n, hn, hi, rfl⟩ := mem_draft_inputs.mp hb
      exact ⟨n, hn, hnode.symm, by rw [if_pos hu, Node.isInput_iff.mp hi]⟩
    · obtain ⟨n, hn, ho, rfl⟩ := mem_draft_outputs.mp hb
      exact ⟨n, hn, hnode.symm, by rw [if_neg hu, Node.isOutput_iff.mp ho]⟩

/-- A product whose first operand is a matrix. -/
def squareProduct : Graph where
  nodes := [
    { uid := "P", kind := .parameter, shape := [2, 2] },
    { uid := "T", kind := .operator "Times" {}, operands := [0, 0] }]

/-- A recurrent input that nothing is fed back to. -/
def unfedInput : Graph where
  nodes := [{ uid := "h", kind := .input, shape := [2], recurrenceOffset := some 1 }]

theorem squareProduct_unfedInput_culprits :
    squareProduct.walk = .error (.unsupportedShape "P" [2, 2] .vectorOperand) ∧
    (∀ ns, (squareProduct.append ns).lower {} =
      .error (.unsupportedShape "P" [2, 2] .vectorOperand)) ∧
    unfedInput.walk = .ok (unfedInput.draft 1) ∧
    (unfedInput.draft 1).finish {} = .error (.unpairedRecurrence "h" 0) ∧
    ∃ n ∈ unfedInput.nodes, n.uid = "h" ∧ n.kind = .input := by
  have hshape : squareProduct.walk = .error (.unsupportedShape "P" [2, 2] .vectorOperand) := by
    decide +kernel
  have hwalk : unfedInput.walk = .ok (unfedInput.draft 1) := by decide +kernel
  have hfed : (unfedInput.draft 1).finish {} = .error (.unpairedRecurrence "h" 0) := by
    decide +kernel
  exact ⟨hshape, ((error_names_culprit squareProduct {} _).1 hshape).1, hwalk, hfed,
    (error_names_culprit unfedInput {} _).2 _ hwalk hfed⟩

end Graph

end EvaluatorGen
