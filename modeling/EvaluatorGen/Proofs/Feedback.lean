import EvaluatorGen.Proofs.Consumers
import EvaluatorGen.Proofs.Evaluator.Step
import EvaluatorGen.Proofs.Lowering.Culprit
import Mathlib.Data.List.Forall2

/-!
The two halves of a feedback loop.

A recurrent output is written to a history from which a recurrent input reads. Both nodes carry
a recurrence offset, a shape and a type. Lowering compares none of them: the offset of an output is
only asked for whether it is there, and its shape for its rank.

1. `Fragment.ofNode_congr`: a rule sees the nodes before only through the operands that it finds.
2. `lower_alike`: so outputs that differ in offset, shape or quantization alone are lowered alike.
3. `recurrent_pair_follows_input`: the history is the input's, with the delay, the extents and the
   type that the input is declared with. `mismatchedPair_disagrees`: the output may be declared with
   others.
-/
namespace EvaluatorGen

/-! ### What a rule sees -/

/-- What an operand look-up finds of a node. Of an output it finds nothing. -/
def Lowered.found? (l : Lowered) : Option (Node × String) := l.symbol.map (l.node, ·)

/-- Two scopes in which every operand is found alike, with the same signature. -/
structure Scope.Alike (s s' : Scope) : Prop where
  found : s'.lowered.map Lowered.found? = s.lowered.map Lowered.found?
  inputs : s'.inputs = s.inputs
  outputs : s'.outputs = s.outputs

namespace Scope

variable {s s' : Scope}

theorem operand_eq (n : Node) (id : UInt64) :
    s.operand n id =
      match (s.lowered.map Lowered.found?)[id.toNat]? with
      | some (some r) => .ok r
      | _ => .error (.operandNotLowered n.uid id) := by
  unfold operand
  rw [List.getElem?_map]
  rcases s.lowered[id.toNat]? with _ | ⟨m, _ | symbol⟩ <;> rfl

theorem Alike.operand (h : s.Alike s') (n : Node) (id : UInt64) :
    s'.operand n id = s.operand n id := by
  rw [operand_eq, operand_eq, h.found]

end Scope

namespace Fragment

variable {s s' : Scope}

theorem ofOutput_congr (h : s.Alike s') (n : Node) : ofOutput s' n = ofOutput s n := by
  have hname : feedbackName s' n = feedbackName s n := by
    funext id
    simp only [feedbackName, h.operand]
  simp only [ofOutput, h.operand, h.outputs, hname]

theorem ofOperation_congr (h : s.Alike s') (n : Node) (shared : Bool) (op : Operation) :
    ofOperation s' n shared op = ofOperation s n shared op := by
  unfold ofOperation
  split
  · simp only [ofBinary, h.operand]
  · simp only [ofUnary, h.operand]
  · simp only [ofTimes, h.operand]
  · simp only [ofSlice, h.operand]
  · simp only [ofSplice, h.operand]
  · rfl

theorem ofNode_congr (h : s.Alike s') (n : Node) (shared : Bool) :
    ofNode s' shared n = ofNode s shared n := by
  unfold ofNode
  split
  · rfl
  · rfl
  · simp only [ofInput, h.inputs]
  · exact ofOutput_congr h n
  · simp only [ofOperator, ofOperation_congr h]
  · simp only [ofMarker, h.operand]

end Fragment

/-! ### Outputs that are lowered alike -/

/-- An output with another offset, shape and quantization. -/
def Node.redeclare (n : Node) (offset : Option UInt64) (shape : List UInt64)
    (quantization : Option Quantization) : Node :=
  { n with recurrenceOffset := offset, shape, quantization }

/-- The same node, or an output that is redeclared: recurrent if it was, and in a supported
    shape. -/
inductive Node.Alike : Node → Node → Prop where
  | refl (n : Node) : Alike n n
  | output (n : Node) (offset : Option UInt64) (shape : List UInt64)
      (quantization : Option Quantization) (kind : n.kind = .output) (rank : n.rank ≤ 2)
      (rank' : shape.length ≤ 2) (recurrent : offset.isSome = n.isRecurrent) :
      Alike n (n.redeclare offset shape quantization)

namespace Node.Alike

variable {n n' : Node} {s : Scope}

theorem operands (h : n.Alike n') : n'.operands = n.operands := by
  cases h <;> rfl

theorem uid (h : n.Alike n') : n'.uid = n.uid := by
  cases h <;> rfl

/-- The rule of outputs gives no symbol, so nothing that was redeclared is found later. -/
theorem found (h : n.Alike n') {symbol : Option String} (hs : n.kind = .output → symbol = none) :
    Lowered.found? ⟨n', symbol⟩ = Lowered.found? ⟨n, symbol⟩ := by
  cases h with
  | refl => rfl
  | output offset shape quantization kind =>
    rw [hs kind]
    rfl

theorem ofNode_eq (h : n.Alike n') (shared : Bool) :
    Fragment.ofNode s shared n' = Fragment.ofNode s shared n := by
  cases h with
  | refl => rfl
  | output offset shape quantization kind rank rank' recurrent =>
    have hkind : (n.redeclare offset shape quantization).kind = .output := kind
    have hoperands : Fragment.outputOperands (n.redeclare offset shape quantization) =
        Fragment.outputOperands n := by
      unfold Fragment.outputOperands
      simp only [redeclare, recurrent, isRecurrent]
    -- Both shapes have extents, and these are not used.
    have hdims := bufferDims_ok_iff.mpr ⟨rank, rfl⟩
    have hdims' := (@bufferDims_ok_iff (n.redeclare offset shape quantization) _).mpr ⟨rank', rfl⟩
    simp only [Fragment.ofNode, kind, hkind, Fragment.ofOutput, hoperands, hdims, hdims']
    rfl

end Node.Alike

theorem Fragment.symbol_of_output {s : Scope} {n : Node} {shared : Bool} {f : Fragment}
    (hk : n.kind = .output) (h : ofNode s shared n = .ok f) : f.symbol = none := by
  simp only [ofNode, hk, ofOutput, bind_eq_ok_iff] at h
  split at h
  · simp only [bind_eq_ok_iff, reduceCtorEq, false_and, exists_false, and_false] at h
  · simp only [bind_eq_ok_iff, pure_eq_ok_iff] at h
    obtain ⟨_, -, _, -, _, -, _, -, _, -, _, -, rfl⟩ := h
    rfl

namespace Draft

variable {c : List Nat} {d d' : Draft} {n n' : Node}

/-- What the nodes behind and the plan take from a draft. -/
structure Seen where
  found : List (Option (Node × String))
  inputs : List InputBinding
  outputs : List OutputBinding
  reserved : List String
  values : List LeafValue
  body : List Stmt

def seen (d : Draft) : Seen where
  found := d.scope.lowered.map Lowered.found?
  inputs := d.scope.inputs
  outputs := d.scope.outputs
  reserved := d.reserved
  values := d.values
  body := d.body

theorem scope_alike (h : d.seen = d'.seen) : d'.scope.Alike d.scope where
  found := congrArg Seen.found h
  inputs := congrArg Seen.inputs h
  outputs := congrArg Seen.outputs h

theorem length_lowered (h : d.seen = d'.seen) :
    d.scope.lowered.length = d'.scope.lowered.length := by
  have hlen := congrArg (List.length ∘ Seen.found) h
  simpa [seen] using hlen

theorem seen_add (h : d.seen = d'.seen) (hn : n.Alike n') {f : Fragment}
    (hf : n.kind = .output → f.symbol = none) (reserved : List String) :
    (d.add n f reserved).seen = (d'.add n' f reserved).seen := by
  have hfound : d.scope.lowered.map Lowered.found? = d'.scope.lowered.map Lowered.found? :=
    congrArg Seen.found h
  have hinputs : d.scope.inputs = d'.scope.inputs := congrArg Seen.inputs h
  have houtputs : d.scope.outputs = d'.scope.outputs := congrArg Seen.outputs h
  have hvalues : d.values = d'.values := congrArg Seen.values h
  have hbody : d.body = d'.body := congrArg Seen.body h
  simp only [seen, add, List.map_append, List.map_singleton, hfound, hinputs, houtputs, hvalues,
    hbody, hn.found hf]

theorem visit_seen (h : d.seen = d'.seen) (hn : n.Alike n') :
    (visit c d n).map seen = (visit c d' n').map seen := by
  have hreserved : d.reserved = d'.reserved := congrArg Seen.reserved h
  simp only [visit, length_lowered h, hn.ofNode_eq, Fragment.ofNode_congr (scope_alike h), hn.uid,
    hreserved]
  cases hf : Fragment.ofNode d'.scope _ n with
  | error e => rfl
  | ok f =>
    -- The same identifiers are claimed, so both claims fail or both reserve the same.
    show (claim n.uid d'.reserved f.claims >>= fun r => pure (d.add n f r)).map seen =
      (claim n.uid d'.reserved f.claims >>= fun r => pure (d'.add n' f r)).map seen
    refine view_bind_same fun reserved => congrArg Except.ok (seen_add h hn ?_ reserved)
    exact fun hk => Fragment.symbol_of_output hk hf

theorem walk_seen {ns ns' : List Node} (h : d.seen = d'.seen)
    (hns : List.Forall₂ Node.Alike ns ns') :
    (ns.foldlM (visit c) d).map seen = (ns'.foldlM (visit c) d').map seen := by
  -- Both walks go on together, and what is seen of their drafts stays the same.
  induction hns generalizing d d' with
  | nil => exact congrArg Except.ok h
  | cons hn _ ih =>
    rw [List.foldlM_cons, List.foldlM_cons]
    exact view_bind (visit_seen h hn) fun _ _ => ih

theorem finish_seen (h : d.seen = d'.seen) (naming : Naming) :
    d.finish naming = d'.finish naming := by
  have hinputs : d.scope.inputs = d'.scope.inputs := congrArg Seen.inputs h
  have houtputs : d.scope.outputs = d'.scope.outputs := congrArg Seen.outputs h
  have hreserved : d.reserved = d'.reserved := congrArg Seen.reserved h
  have hvalues : d.values = d'.values := congrArg Seen.values h
  have hbody : d.body = d'.body := congrArg Seen.body h
  simp only [finish, checkFeedback, checkOutputNames, checkOutputSymbols, hinputs, houtputs,
    hreserved, hvalues, hbody]

end Draft

namespace Graph

variable {g g' : Graph} {naming : Naming}

theorem consumerCounts_alike (h : List.Forall₂ Node.Alike g.nodes g'.nodes) :
    g.consumerCounts = g'.consumerCounts := by
  refine consumerCounts_congr (List.forall₂_eq_eq_eq ▸ ?_)
  rw [List.forall₂_map_left_iff, List.forall₂_map_right_iff]
  exact h.imp fun _ _ hn => hn.operands.symm

/-- Graphs whose outputs are declared alike in all that is looked at are lowered alike. -/
theorem lower_alike (h : List.Forall₂ Node.Alike g.nodes g'.nodes) :
    g.lower naming = g'.lower naming := by
  have hwalk : g.walk.map Draft.seen = g'.walk.map Draft.seen := by
    unfold walk
    rw [consumerCounts_alike h]
    exact Draft.walk_seen rfl h
  unfold lower
  cases hx : g.walk <;> cases hy : g'.walk <;> rw [hx, hy] at hwalk
  · cases hwalk
    rfl
  · cases hwalk
  · cases hwalk
  · exact Draft.finish_seen (Except.ok.inj hwalk) naming

theorem forall₂_alike_set {n' : Node} {id : Nat} {n : Node} (hn : g.nodes[id]? = some n)
    (h : n.Alike n') : List.Forall₂ Node.Alike g.nodes (g.set id n').nodes := by
  obtain ⟨hlt, rfl⟩ := List.getElem?_eq_some_iff.mp hn
  rw [set, List.forall₂_iff_get]
  refine ⟨(List.length_set ..).symm, ?_⟩
  intro j hj hj'
  simp only [List.get_eq_getElem, List.getElem_set]
  split
  · rename_i heq
    subst heq
    exact h
  · exact .refl _

/-! ### Both halves of a loop -/

theorem elements_agree_iff {i o : Node} (hi : i.HasValueType) (ho : o.HasFloatType) :
    i.valueType = o.floatType ↔ i.quantization = none ∧ i.elementType = o.elementType := by
  cases hq : i.quantization with
  | none =>
    have hfloat := hi.2 hq
    rcases hfloat with hi' | hi' <;> rcases ho with ho' | ho' <;>
      simp [Node.valueType, Node.floatType, hq, hi', ho']
  | some q =>
    rcases hi.1 q hq with hb | hb <;> rcases ho with ho' | ho' <;>
      simp [Node.valueType, Node.floatType, hq, hb, ho']

/-- The input that a recurrent output names as its second operand is a recurrent one, and the
    output's entry leads to the input's. The history has the offset and the extents of the input,
    the input's entry its type. What the output is declared with decides the type that it is
    realized in and nothing else: with another offset, shape and quantization the plan is the
    same. -/
theorem recurrent_pair_follows_input {plan : Plan} (h : g.lower naming = .ok plan) {id : Nat}
    {o : Node} (ho : g.nodes[id]? = some o) (hk : o.kind = .output) (hr : o.isRecurrent) :
    (∃ i k, ∃ ib ∈ plan.inputs, ∃ ob ∈ plan.outputs,
      g.operand? o 1 = some i ∧ i.kind = .input ∧ i.recurrenceOffset = some k ∧
      ob.uid = o.uid ∧ ob.name = o.signatureName ∧ ib.uid = i.uid ∧
      ob.feeds = some ib.name ∧ plan.input? ib.name = some ib ∧
      ib.recurrence = some ⟨k, i.sizes.reverse⟩ ∧
      ib.element = i.valueType ∧ ob.element = o.floatType ∧
      (ib.element = ob.element ↔ i.quantization = none ∧ i.elementType = o.elementType)) ∧
    ∀ offset shape quantization, shape.length ≤ 2 →
      (g.set id (o.redeclare (some offset) shape quantization)).lower naming = .ok plan := by
  obtain ⟨hacc, rfl⟩ := lower_eq_ok_iff.mp h
  have hmem := List.mem_of_getElem? ho
  have hout := Node.isOutput_iff.mpr hk
  obtain ⟨_, hfit⟩ := (prefixFits_of_acceptable hacc).output hmem hout
  refine ⟨?_, ?_⟩
  · obtain ⟨i, hi, hin, hrec⟩ := hfit.feedback hr
    obtain ⟨k, hoffset⟩ := Option.isSome_iff_exists.mp hrec
    obtain ⟨_, -, hget⟩ := Option.bind_eq_some_iff.mp hi
    have hib : i.inputBinding ∈ (g.planOf naming).inputs :=
      mem_planOf_inputs.mpr ⟨i, List.mem_of_getElem? hget, Node.isInput_iff.mpr hin, rfl⟩
    have hob : g.outputBinding o ∈ (g.planOf naming).outputs :=
      mem_planOf_outputs.mpr ⟨o, hmem, hout, rfl⟩
    have hfits : i.InputFits := by
      have hnode := hacc.nodes _ i hget
      rwa [NodeFits, hin] at hnode
    refine ⟨i, k, _, hib, _, hob, hi, hin, hoffset, rfl, rfl, rfl, ?_, ?_, ?_, rfl, rfl, ?_⟩
    · simp [outputBinding, hr, hi, Node.inputBinding]
    · exact (wired_planOf hacc naming).input?_eq hib
    · simp [Node.inputBinding, hoffset]
    · exact elements_agree_iff hfits.type hfit.float
  · intro offset shape quantization hshape
    rw [← h]
    exact (lower_alike (forall₂_alike_set ho
      (.output o (some offset) shape quantization hk hfit.rank hshape hr.symm))).symm

theorem runningSum_redeclared :
    (runningSum.set 6
      { uid := "z", kind := .output, shape := [7, 5], recurrenceOffset := some 9,
        operands := [4, 1] }).lower {} = .ok (runningSum.planOf {}) :=
  (recurrent_pair_follows_input runningSum_lower (o := runningSum.nodes[6]) rfl rfl rfl).2
    9 [7, 5] none (by decide)

/-- An output that delays by five steps and has three elements of single precision, fed back to
    an input that delays by two and has four of double precision. -/
def mismatchedPair : Graph where
  nodes := [
    { uid := "x", kind := .input, shape := [3] },
    { uid := "h", kind := .input, shape := [4], elementType := .f64, recurrenceOffset := some 2 },
    { uid := "y", kind := .output, shape := [3], recurrenceOffset := some 5, operands := [0, 1] }]

/-- The pair is accepted, and its halves agree in nothing. -/
theorem mismatchedPair_disagrees :
    ∃ plan, mismatchedPair.lower {} = .ok plan ∧
      ∃ i o ib ob, mismatchedPair.nodes[1]? = some i ∧ mismatchedPair.nodes[2]? = some o ∧
        o.kind = .output ∧ mismatchedPair.operand? o 1 = some i ∧
        i.recurrenceOffset = some 2 ∧ o.recurrenceOffset = some 5 ∧
        i.bufferDims = .ok [4] ∧ o.bufferDims = .ok [3] ∧
        ib ∈ plan.inputs ∧ ob ∈ plan.outputs ∧ ib.uid = i.uid ∧ ob.uid = o.uid ∧
        ob.feeds = some ib.name ∧ ib.element = .double ∧ ob.element = .float := by
  refine ⟨mismatchedPair.planOf {}, by decide +kernel, mismatchedPair.nodes[1],
    mismatchedPair.nodes[2], ⟨"h", "h", .double, some ⟨2, [4]⟩⟩, ⟨"y", "y", "x", .float, some "h"⟩,
    rfl, rfl, rfl, rfl, rfl, rfl, rfl, rfl, by decide +kernel, by decide +kernel, rfl, rfl, rfl,
    rfl, rfl⟩

end Graph

end EvaluatorGen
