import EvaluatorGen.Proofs.Identifiers
import Mathlib.Data.List.Forall2

/-!
The entries of a signature and the nodes that they stand for.

1. `InSignatureOrder`: immediate entries and then recurrent ones, each part with strictly
   increasing names. Sorting gives no more than increasing names; that they differ is due to the
   names being distinct (`signatureOrder_inOrder`).
2. `InputBinding.Describes`, `OutputBinding.Describes`: what an entry says of a node, in the
   functions that lowering asks for types and extents.
3. `signature_complete`: the entries are in order, one for each input and output of the graph.
-/
namespace EvaluatorGen

/-- Entries that are not recurrent and then those that are, both with strictly increasing
    names. -/
def InSignatureOrder {α : Type} (name : α → String) (recurrent : α → Bool) (xs : List α) :
    Prop :=
  ∃ immediate later, xs = immediate ++ later ∧
    (∀ x ∈ immediate, recurrent x = false) ∧ (∀ x ∈ later, recurrent x = true) ∧
    (immediate.Pairwise fun a b => name a < name b) ∧ later.Pairwise fun a b => name a < name b

namespace Draft

variable {α : Type} {name : α → String} {recurrent : α → Bool}

theorem signatureOrder_inOrder {xs : List α} (hd : (xs.map name).Nodup) :
    InSignatureOrder name recurrent (signatureOrder name recurrent xs) := by
  have hpart : ∀ p : α → Bool,
      (sortByName name (xs.filter p)).Pairwise fun a b => name a < name b :=
    fun p => sortByName_strict (hd.sublist (List.filter_sublist.map name))
  refine ⟨_, _, rfl, ?_, ?_, hpart _, hpart _⟩
  · intro x hx
    have hm := (List.mem_filter.mp ((sortByName_perm _).mem_iff.mp hx)).2
    simpa using hm
  · intro x hx
    exact (List.mem_filter.mp ((sortByName_perm _).mem_iff.mp hx)).2

end Draft

/-- The entry of an input: its uid, its name as an identifier, the type that its values have,
    and, if it has an offset, that offset with the extents of its buffer. -/
structure InputBinding.Describes (i : InputBinding) (n : Node) : Prop where
  uid : i.uid = n.uid
  name : i.name = Identifier.ofText n.displayName
  element : n.resolvedType = .ok i.element
  recurrence :
    match n.recurrenceOffset with
    | none => i.recurrence = none
    | some offset => ∃ dims, n.bufferDims = .ok dims ∧ i.recurrence = some ⟨offset, dims⟩

/-- The entry of an output: its uid, its name as an identifier, its declared type, the symbol of
    its first operand, and, if it has an offset, the name of its second operand. -/
structure OutputBinding.Describes (g : Graph) (o : OutputBinding) (n : Node) : Prop where
  uid : o.uid = n.uid
  name : o.name = Identifier.ofText n.displayName
  element : n.sourceType = .ok o.element
  value : ∃ m, g.operand? n 0 = some m ∧ m.symbol? = some o.value
  feeds :
    match n.recurrenceOffset with
    | none => o.feeds = none
    | some _ => ∃ m, g.operand? n 1 = some m ∧ o.feeds = some (Identifier.ofText m.displayName)

namespace Node

variable {n : Node}

theorem inputBinding_describes (h : n.InputFits) (hi : n.isInput) :
    n.inputBinding.Describes n where
  uid := rfl
  name := Graph.symbol_of_input hi
  element := resolvedType_ok_iff.mpr ⟨h.type, rfl⟩
  recurrence := by
    have hdims := bufferDims_ok_iff.mpr ⟨h.rank, rfl⟩
    cases hr : n.recurrenceOffset with
    | none => simp [inputBinding, hr]
    | some offset => exact ⟨_, hdims, by simp [inputBinding, hr]⟩

end Node

namespace Graph

variable {g : Graph} {naming : Naming} {n : Node}

theorem Acceptable.inputFits (h : g.Acceptable) (hn : n ∈ g.nodes) (hi : n.isInput) :
    n.InputFits := by
  obtain ⟨id, hid⟩ := List.mem_iff_getElem?.mp hn
  have hfit := h.nodes id n hid
  rwa [NodeFits, Node.isInput_iff.mp hi] at hfit

theorem Acceptable.outputFits {id : Nat} (h : g.Acceptable) (hn : g.nodes[id]? = some n)
    (ho : n.isOutput) : g.OutputFits id n := by
  have hfit := h.nodes id n hn
  rwa [NodeFits, Node.isOutput_iff.mp ho] at hfit

/-- An operand that a node may name is found, and it has a symbol. -/
theorem Available.symbol {id : Nat} {o : UInt64} (h : g.Available id o) :
    ∃ m, g.get? o = some m ∧ m.symbol? = some m.symbol := by
  obtain ⟨-, m, hm, hk⟩ := h
  exact ⟨m, hm, symbol?_eq_some_iff.mpr ⟨hk, rfl⟩⟩

theorem OutputFits.first_operand {id : Nat} (h : g.OutputFits id n) :
    ∃ m, g.operand? n 0 = some m ∧ m.symbol? = some m.symbol := by
  have hlen : 0 < n.operands.length := by
    have harity := h.arity
    split at harity <;> omega
  obtain ⟨m, hm, hs⟩ := (h.available _ (List.getElem_mem hlen)).symbol
  exact ⟨m, by simp [operand?, List.getElem?_eq_getElem hlen, hm], hs⟩

theorem outputBinding_describes {id : Nat} (h : g.OutputFits id n) :
    (g.outputBinding n).Describes g n where
  uid := rfl
  name := rfl
  element := Node.sourceType_ok_iff.mpr ⟨h.float, rfl⟩
  value := by
    obtain ⟨m, hm, hs⟩ := h.first_operand
    exact ⟨m, hm, by simpa [outputBinding, hm] using hs⟩
  feeds := by
    cases hr : n.recurrenceOffset with
    | none => simp [outputBinding, Node.isRecurrent, hr]
    | some offset =>
      have hrec : n.isRecurrent := by simp [Node.isRecurrent, hr]
      obtain ⟨m, hm, hin, -⟩ := h.feedback hrec
      refine ⟨m, hm, ?_⟩
      simp [outputBinding, hrec, hm, symbol_of_input (Node.isInput_iff.mpr hin), Node.signatureName]

/-! ### Both lists -/

theorem inputs_inOrder (h : g.Acceptable) :
    InSignatureOrder InputBinding.name (·.recurrence.isSome) (g.planOf naming).inputs := by
  apply Draft.signatureOrder_inOrder
  rw [List.map_map]
  exact inputSymbols_nodup h

theorem outputs_inOrder (h : g.Acceptable) :
    InSignatureOrder OutputBinding.name (·.feeds.isSome) (g.planOf naming).outputs := by
  apply Draft.signatureOrder_inOrder
  rw [List.map_map]
  exact h.outputNames

/-- Both lists of a plan are in the order of a signature. Up to that order, they are one entry
    for each input and for each output of the graph, with what the node is declared with. -/
theorem signature_complete {plan : Plan} (h : g.lower naming = .ok plan) :
    (InSignatureOrder InputBinding.name (·.recurrence.isSome) plan.inputs ∧
      ∃ entries, List.Forall₂ InputBinding.Describes entries (g.nodes.filter Node.isInput) ∧
        entries.Perm plan.inputs) ∧
    InSignatureOrder OutputBinding.name (·.feeds.isSome) plan.outputs ∧
      ∃ entries, List.Forall₂ (OutputBinding.Describes g) entries
          (g.nodes.filter Node.isOutput) ∧
        entries.Perm plan.outputs := by
  obtain ⟨hacc, rfl⟩ := lower_eq_ok_iff.mp h
  refine ⟨⟨inputs_inOrder hacc, _, ?_, (Draft.signatureOrder_perm _).symm⟩,
    outputs_inOrder hacc, _, ?_, (Draft.signatureOrder_perm _).symm⟩
  · rw [List.forall₂_map_left_iff, List.forall₂_same]
    intro n hn
    obtain ⟨hn, hi⟩ := List.mem_filter.mp hn
    exact Node.inputBinding_describes (hacc.inputFits hn hi) hi
  · rw [List.forall₂_map_left_iff, List.forall₂_same]
    intro n hn
    obtain ⟨hn, ho⟩ := List.mem_filter.mp hn
    obtain ⟨id, hid⟩ := List.mem_iff_getElem?.mp hn
    exact outputBinding_describes (hacc.outputFits hid ho)

theorem runningSum_signature :
    runningSum.lower {} = .ok (runningSum.planOf {}) ∧
    InSignatureOrder InputBinding.name (·.recurrence.isSome) (runningSum.planOf {}).inputs ∧
    InSignatureOrder OutputBinding.name (·.feeds.isSome) (runningSum.planOf {}).outputs ∧
    ∃ entries, List.Forall₂ InputBinding.Describes entries (runningSum.nodes.take 2) ∧
      entries.Perm [⟨"x", "x", .float, none⟩, ⟨"h", "h", .float, some ⟨2, [2]⟩⟩] := by
  obtain ⟨⟨hi, entries, hrows, hperm⟩, ho, -⟩ := signature_complete runningSum_lower
  exact ⟨runningSum_lower, hi, ho, entries, hrows, runningSum_inputs ▸ hperm⟩

end Graph

end EvaluatorGen
