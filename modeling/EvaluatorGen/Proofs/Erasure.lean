import EvaluatorGen.Proofs.Consumers
import EvaluatorGen.Proofs.Signature
import EvaluatorGen.Header.Basic
import Mathlib.Data.List.Forall2

/-!
What a header does not depend on.

A graph carries more than its header is made from: the values of the leaves, the names of stages, and
annotations of nodes that have no use for them.

1. `Node.erase`: the node without all that. `Fragment.ofNode_erase`: in a scope of erased nodes the
   rules give what they gave.
2. `Draft.visit_erase`, `Graph.walk_erase`: so a walk over erased nodes goes the same way, to the same
   error or to the erased draft.
3. `generate_of_agrees`: graphs that differ in nothing else have one outcome, whatever it is.
-/
namespace EvaluatorGen

/-! ### What is read -/

/-- The kinds are the same, but for the attributes of an operator that has none. -/
inductive NodeKind.AgreesOnReads : NodeKind → NodeKind → Prop where
  | refl (k : NodeKind) : AgreesOnReads k k
  | attributes {name : String} (h : name ≠ "Slice") (a a' : Attributes) :
    AgreesOnReads (.operator name a) (.operator name a')

/-- The kind without attributes that are not read. -/
def NodeKind.erase : NodeKind → NodeKind
  | .operator name a => .operator name (if name = "Slice" then a else {})
  | k => k

theorem NodeKind.AgreesOnReads.erase_eq {k k' : NodeKind} (h : k.AgreesOnReads k') :
    k.erase = k'.erase := by
  cases h with
  | refl => rfl
  | attributes hname => rw [erase, erase, if_neg hname, if_neg hname]

theorem NodeKind.AgreesOnReads.cases {k k' : NodeKind} (h : k.AgreesOnReads k') :
    k = k' ∨ ∃ name a a', k = .operator name a ∧ k' = .operator name a' := by
  cases h with
  | refl => exact .inl rfl
  | @attributes name _ a a' => exact .inr ⟨name, a, a', rfl, rfl⟩

namespace Node

/-- Whether the node stands in a signature. -/
def isSignature (n : Node) : Bool := n.isInput || n.isOutput

/-- Whether the node's quantization is asked for. An output has the type that it is declared with,
    and so do the results of most operators. -/
def readsQuantization (n : Node) : Bool :=
  match n.kind with
  | .output => false
  | .operator name _ => name ∈ ["Times", "Sigmoid", "StableSigmoid"]
  | _ => true

/-- The nodes differ at most in their values and in what is not read of them. -/
structure AgreesOnReads (n n' : Node) : Prop where
  uid : n.uid = n'.uid
  kind : n.kind.AgreesOnReads n'.kind
  shape : n.shape = n'.shape
  elementType : n.elementType = n'.elementType
  operands : n.operands = n'.operands
  name : n.isSignature → n.name = n'.name
  recurrenceOffset : n.isSignature → n.recurrenceOffset = n'.recurrenceOffset
  quantization : n.readsQuantization → n.quantization = n'.quantization

/-- The node without its value and without what is not read of it. -/
def erase (n : Node) : Node where
  uid := n.uid
  name := if n.isSignature then n.name else none
  kind := n.kind.erase
  shape := n.shape
  elementType := n.elementType
  quantization := if n.readsQuantization then n.quantization else none
  recurrenceOffset := if n.isSignature then n.recurrenceOffset else none
  operands := n.operands

theorem AgreesOnReads.erase_eq {n n' : Node} (h : n.AgreesOnReads n') : n.erase = n'.erase := by
  have hsignature : n'.isSignature = n.isSignature := by
    unfold isSignature isInput isOutput
    rcases h.kind.cases with hk | ⟨name, a, a', hk, hk'⟩
    · rw [hk]
    · simp [hk, hk']
  have hreads : n'.readsQuantization = n.readsQuantization := by
    unfold readsQuantization
    rcases h.kind.cases with hk | ⟨name, a, a', hk, hk'⟩
    · rw [hk]
    · simp [hk, hk']
  have hname : (if n.isSignature then n.name else none) =
      if n.isSignature then n'.name else none := by
    split
    · rename_i hs
      exact h.name hs
    · rfl
  have hoffset : (if n.isSignature then n.recurrenceOffset else none) =
      if n.isSignature then n'.recurrenceOffset else none := by
    split
    · rename_i hs
      exact h.recurrenceOffset hs
    · rfl
  have hquantization : (if n.readsQuantization then n.quantization else none) =
      if n.readsQuantization then n'.quantization else none := by
    split
    · rename_i hr
      exact h.quantization hr
    · rfl
  rw [erase, erase, hsignature, hreads, hname, hoffset, hquantization, h.uid, h.kind.erase_eq,
    h.shape, h.elementType, h.operands]

/-! ### Erased nodes -/

variable {n : Node}

theorem erase_of_signature (h : n.isSignature) :
    n.erase.name = n.name ∧ n.erase.recurrenceOffset = n.recurrenceOffset :=
  ⟨if_pos h, if_pos h⟩

theorem displayName_erase (h : n.isSignature) : n.erase.displayName = n.displayName := by
  rw [displayName, (erase_of_signature h).1]
  rfl

theorem quantization_erase (h : n.readsQuantization) : n.erase.quantization = n.quantization :=
  if_pos h

theorem resolvedType_erase (h : n.readsQuantization) : n.erase.resolvedType = n.resolvedType := by
  unfold resolvedType
  rw [quantization_erase h]
  rfl

theorem kind_erase_eq_input_iff : n.erase.kind = .input ↔ n.kind = .input := by
  rw [erase]
  cases n.kind <;> simp [NodeKind.erase]

end Node

theorem Operation.ofNode_erase (n : Node) : ofNode n.erase = ofNode n := by
  have hkind : n.erase.kind = n.kind.erase := rfl
  unfold ofNode
  rw [hkind]
  cases hk : n.kind with
  | operator name a =>
    rw [NodeKind.erase]
    by_cases hname : name = "Slice"
    · rw [if_pos hname]
      rfl
    · -- No other name asks for the attributes.
      rw [if_neg hname]
      split
      case h_11 => split <;> simp_all [Node.erase]
      case h_12 => simp_all
      case h_9 heq =>
        cases heq
        exact absurd rfl hname
      all_goals
        rename_i heq
        cases heq
        rfl
  | parameter | constant | input | output | quantizeMarker => rfl

/-- A product and a sigmoid ask for the quantization of their node. -/
theorem Operation.readsQuantization {n : Node} {op : Operation} (h : ofNode n = .ok op)
    (hop : op = .times ∨ op = .unary .sigmoid) : n.readsQuantization := by
  unfold ofNode at h
  split at h
  case h_9 =>
    obtain ⟨-, rfl⟩ := Graph.sliceOf_ok_iff.mp h
    simp at hop
  case h_11 | h_12 => cases h
  case h_6 | h_7 | h_8 =>
    rename_i hk
    rw [Node.readsQuantization, hk]
    rfl
  all_goals
    cases h
    simp at hop

/-- The scope with erased nodes. -/
def Scope.erase (s : Scope) : Scope :=
  { s with lowered := s.lowered.map fun l => ⟨l.node.erase, l.symbol⟩ }

/-- An operand is found where it was, and with the same symbol. -/
theorem Scope.operand_erase_bind {α : Type} (s : Scope) (n : Node) (id : UInt64)
    (k : Node × String → Except CompileError α) :
    (s.erase.operand n.erase id >>= k) = s.operand n id >>= fun p => k (p.1.erase, p.2) := by
  rw [operand, operand, erase, List.getElem?_map]
  rcases s.lowered[id.toNat]? with _ | ⟨m, _ | symbol⟩ <;> rfl

namespace Fragment

variable {s : Scope} {n : Node}

theorem ofLeaf_erase (h : n.readsQuantization) : ofLeaf n.erase = ofLeaf n := by
  unfold ofLeaf
  rw [Node.resolvedType_erase h, Node.quantization_erase h]
  rfl

theorem ofInput_erase (h : n.isSignature) (hq : n.readsQuantization) :
    ofInput s.erase n.erase = ofInput s n := by
  unfold ofInput
  rw [Node.resolvedType_erase hq, Node.displayName_erase h, (Node.erase_of_signature h).2]
  rfl

/-- What an output feeds is an input, so its name and its offset are there. -/
theorem feedbackName_erase (id : UInt64) :
    feedbackName s.erase n.erase id = feedbackName s n id := by
  rw [feedbackName, feedbackName, Scope.operand_erase_bind]
  congr 1
  funext p
  by_cases hk : p.1.kind = .input
  · have hs : p.1.isSignature := by simp [Node.isSignature, Node.isInput, hk]
    simp only [Node.kind_erase_eq_input_iff, Node.displayName_erase hs,
      (Node.erase_of_signature hs).2]
    rfl
  · simp only [Node.kind_erase_eq_input_iff, hk, false_and, if_false]
    rfl

theorem ofOutput_erase (h : n.isSignature) : ofOutput s.erase n.erase = ofOutput s n := by
  have hoperands : outputOperands n.erase = outputOperands n := by
    unfold outputOperands
    rw [(Node.erase_of_signature h).2]
    rfl
  have hfeedback : feedbackName s.erase n.erase = feedbackName s n := funext feedbackName_erase
  unfold ofOutput
  simp only [hoperands, hfeedback, Node.displayName_erase h, Scope.operand_erase_bind]
  rfl

theorem ofOperation_erase (shared : Bool) {op : Operation} (h : Operation.ofNode n = .ok op) :
    ofOperation s.erase n.erase shared op = ofOperation s n shared op := by
  have hoperands : n.erase.operands = n.operands := rfl
  unfold ofOperation
  rw [hoperands]
  split
  · simp only [ofBinary, Scope.operand_erase_bind]
    rfl
  · rename_i u x _
    have hcallee : unaryCallee n.erase u = unaryCallee n u := by
      cases u with
      | log | tanh => rfl
      | sigmoid =>
        rw [unaryCallee, Node.resolvedType_erase (Operation.readsQuantization h (.inr rfl))]
        rfl
    simp only [ofUnary, Scope.operand_erase_bind, hcallee]
    rfl
  · have hquantization := Node.quantization_erase (Operation.readsQuantization h (.inl rfl))
    simp only [ofTimes, Scope.operand_erase_bind, hquantization]
    rfl
  · simp only [ofSlice, Scope.operand_erase_bind]
    rfl
  · simp only [ofSplice, Scope.operand_erase_bind]
    rfl
  · rfl

theorem ofMarker_erase (h : n.readsQuantization) : ofMarker s.erase n.erase = ofMarker s n := by
  have hoperand : markerOperand n.erase = markerOperand n := by
    unfold markerOperand
    rw [Node.quantization_erase h]
    rfl
  simp only [ofMarker, hoperand, Scope.operand_erase_bind, Node.resolvedType_erase h]
  rfl

/-- Every rule gives what it gave: a contribution, or an error. -/
theorem ofNode_erase (shared : Bool) : ofNode s.erase shared n.erase = ofNode s shared n := by
  have hkind : n.erase.kind = n.kind.erase := rfl
  unfold ofNode
  rw [hkind]
  cases hk : n.kind with
  | parameter | constant => exact ofLeaf_erase (by simp [Node.readsQuantization, hk])
  | input =>
    exact ofInput_erase (by simp [Node.isSignature, Node.isInput, hk])
      (by simp [Node.readsQuantization, hk])
  | output => exact ofOutput_erase (by simp [Node.isSignature, Node.isOutput, hk])
  | operator name a =>
    show ofOperator s.erase n.erase shared = ofOperator s n shared
    rw [ofOperator, ofOperator, Operation.ofNode_erase]
    cases hop : Operation.ofNode n with
    | error e => rfl
    | ok op => exact ofOperation_erase shared hop
  | quantizeMarker => exact ofMarker_erase (by simp [Node.readsQuantization, hk])

end Fragment

/-! ### The walk -/

namespace Draft

/-- The draft with erased nodes. -/
def erase (d : Draft) : Draft := { d with scope := d.scope.erase }

theorem erase_add (d : Draft) (n : Node) (f : Fragment) (reserved : List String) :
    d.erase.add n.erase f reserved = (d.add n f reserved).erase := by
  simp only [erase, add, Scope.erase, List.map_append, List.map_singleton]

theorem visit_erase (c : List Nat) (d : Draft) (n : Node) :
    visit c d.erase n.erase = (visit c d n).map erase := by
  have hlength : d.erase.scope.lowered.length = d.scope.lowered.length := List.length_map _
  have hscope : d.erase.scope = d.scope.erase := rfl
  rw [visit, visit, hlength, hscope, Fragment.ofNode_erase]
  cases Fragment.ofNode d.scope _ n with
  | error e => rfl
  | ok f =>
    show (claim n.uid d.reserved f.claims >>= fun r => pure (d.erase.add n.erase f r)) =
      (claim n.uid d.reserved f.claims >>= fun r => pure (d.add n f r)).map erase
    cases claim n.uid d.reserved f.claims with
    | error e => rfl
    | ok reserved => exact congrArg Except.ok (erase_add d n f reserved)

theorem foldlM_visit_erase (c : List Nat) (d : Draft) (ns : List Node) :
    (ns.map Node.erase).foldlM (visit c) d.erase = (ns.foldlM (visit c) d).map erase := by
  induction ns generalizing d with
  | nil => rfl
  | cons n ns ih =>
    rw [List.map_cons, List.foldlM_cons, List.foldlM_cons, visit_erase]
    cases visit c d n with
    | error e => rfl
    | ok d' => exact ih d'

end Draft

namespace Graph

/-- The graph with erased nodes. -/
def erase (g : Graph) : Graph := ⟨g.nodes.map Node.erase⟩

theorem walk_erase (g : Graph) : g.erase.walk = g.walk.map Draft.erase := by
  have hcounts : g.erase.consumerCounts = g.consumerCounts := by
    apply consumerCounts_congr
    rw [erase, List.map_map]
    rfl
  rw [walk, walk, hcounts]
  exact Draft.foldlM_visit_erase _ {} g.nodes

/-- What remains to be done looks at no node. -/
theorem lower_erase (g : Graph) (naming : Naming) : g.erase.lower naming = g.lower naming := by
  rw [lower, lower, walk_erase]
  cases g.walk with
  | error e => rfl
  | ok d => rfl

theorem generate_erase (g : Graph) (naming : Naming) :
    g.erase.generate naming = g.generate naming := by
  rw [generate, generate, lower_erase]

/-- Two graphs whose nodes differ at most in their values, and in names, recurrence offsets,
    quantizations and attributes that are not read of them, come to the same: the same error of
    lowering, the same overflow, or the same plan with the same header, character by character. -/
theorem generate_of_agrees {g g' : Graph}
    (h : List.Forall₂ Node.AgreesOnReads g.nodes g'.nodes) (naming : Naming) :
    g.generate naming = g'.generate naming := by
  have herase : g.erase = g'.erase := by
    refine congrArg Graph.mk (List.forall₂_eq_eq_eq ▸ ?_)
    rw [List.forall₂_map_left_iff, List.forall₂_map_right_iff]
    exact h.imp fun _ _ hn => hn.erase_eq
  rw [← generate_erase g, herase, generate_erase]

/-- The running sum with values and with annotations that are not read, some of which would be
    refused where they are. -/
def annotatedSum : Graph where
  nodes := [
    { uid := "x", kind := .input, shape := [2], value := some [] },
    { uid := "h", kind := .input, shape := [2], recurrenceOffset := some 2 },
    { uid := "W", name := some "x", kind := .parameter, shape := [2, 2],
      quantization := some { bits := 8 }, recurrenceOffset := some 0xFFFFFFFFFFFFFFFF,
      value := some [⟨0⟩] },
    { uid := "p", name := some "W", kind := .operator "Times" { stride := some 3 }, shape := [2],
      operands := [0, 2] },
    { uid := "s", kind := .operator "Plus" { beginIndex := some 1 }, shape := [2],
      quantization := some { bits := 5 }, recurrenceOffset := some 1, operands := [3, 1] },
    { uid := "y", kind := .output, shape := [2], quantization := some { bits := 3 },
      operands := [4] },
    { uid := "z", kind := .output, shape := [2], recurrenceOffset := some 2,
      operands := [4, 1], value := some [⟨1⟩] }]

theorem annotatedSum_generate :
    List.Forall₂ Node.AgreesOnReads runningSum.nodes annotatedSum.nodes ∧
    runningSum.generate {} = annotatedSum.generate {} := by
  have h : List.Forall₂ Node.AgreesOnReads runningSum.nodes annotatedSum.nodes := by
    refine .cons ?_ (.cons ?_ (.cons ?_ (.cons ?_ (.cons ?_ (.cons ?_ (.cons ?_ .nil))))))
    case refine_4 | refine_5 =>
      exact ⟨rfl, .attributes (by decide) _ _, rfl, rfl, rfl, by decide, by decide, by decide⟩
    all_goals exact ⟨rfl, .refl _, rfl, rfl, rfl, by decide, by decide, by decide⟩
  exact ⟨h, generate_of_agrees h {}⟩

end Graph

end EvaluatorGen
