import EvaluatorGen.Proofs.Bindings
import EvaluatorGen.Proofs.Evaluator.Recurrence
import Mathlib.Data.Set.Function

/-!
Recurrent outputs and the inputs that they feed.

The graph relates an output to an input by position, the plan by name.

1. `Plan.Wired.fed_bijOn`: the look-up by name pairs the recurrent outputs with the recurrent
   inputs, each with one of the other side.
2. `Graph.fedByEdge`: the entry that is found is that of the node that the output names.
-/
namespace EvaluatorGen

namespace Plan

variable {p : Plan}

def recurrentOutputs (p : Plan) : List OutputBinding := p.outputs.filter (·.feeds.isSome)

/-- The input that an output is fed back to, found by its name. -/
def fedInput? (p : Plan) (o : OutputBinding) : Option InputBinding := o.feeds.bind p.input?

theorem mem_recurrentOutputs {o : OutputBinding} :
    o ∈ p.recurrentOutputs ↔ o ∈ p.outputs ∧ ∃ target, o.feeds = some target := by
  rw [recurrentOutputs, List.mem_filter, Option.isSome_iff_exists]

namespace Wired

theorem fedInput?_eq (h : p.Wired) {o : OutputBinding} {r : InputBinding × RecurrentSlot}
    (hr : r ∈ p.recurrentInputs) (hf : o.feeds = some r.1.name) : p.fedInput? o = some r.1 := by
  rw [fedInput?, hf, Option.bind_some, h.input?_eq (mem_recurrentInputs.mp hr).1]

theorem fed_mapsTo (h : p.Wired) :
    Set.MapsTo p.fedInput? {o | o ∈ p.recurrentOutputs}
      {x | ∃ r ∈ p.recurrentInputs, x = some r.1} := by
  intro o ho
  obtain ⟨ho, target, hf⟩ := mem_recurrentOutputs.mp ho
  obtain ⟨r, hr, rfl⟩ := h.feeds o ho target hf
  exact ⟨r, hr, h.fedInput?_eq hr hf⟩

/-- An input has one feeder, and outputs with one input are both that. -/
theorem fed_injOn (h : p.Wired) : Set.InjOn p.fedInput? {o | o ∈ p.recurrentOutputs} := by
  intro o ho o' ho' heq
  obtain ⟨ho, target, hf⟩ := mem_recurrentOutputs.mp ho
  obtain ⟨ho', target', hf'⟩ := mem_recurrentOutputs.mp ho'
  obtain ⟨r, hr, rfl⟩ := h.feeds o ho target hf
  obtain ⟨r', hr', rfl⟩ := h.feeds o' ho' target' hf'
  rw [h.fedInput?_eq hr hf, h.fedInput?_eq hr' hf', Option.some.injEq] at heq
  -- Both outputs are the one entry of the list of feeders.
  have hone := h.fedOnce r hr
  have hp : (o.feeds == some r.1.name) = true := by simp [hf]
  have hp' : (o'.feeds == some r.1.name) = true := by simp [hf', heq]
  exact List.singleton_inj.mp
    ((filter_eq_singleton hone ho hp).symm.trans (filter_eq_singleton hone ho' hp'))

theorem fed_surjOn (h : p.Wired) :
    Set.SurjOn p.fedInput? {o | o ∈ p.recurrentOutputs}
      {x | ∃ r ∈ p.recurrentInputs, x = some r.1} := by
  rintro x ⟨r, hr, rfl⟩
  obtain ⟨o, ho, hf⟩ := h.feeder hr
  exact ⟨o, mem_recurrentOutputs.mpr ⟨ho, _, hf⟩, h.fedInput?_eq hr hf⟩

theorem fed_bijOn (h : p.Wired) :
    Set.BijOn p.fedInput? {o | o ∈ p.recurrentOutputs}
      {x | ∃ r ∈ p.recurrentInputs, x = some r.1} :=
  ⟨h.fed_mapsTo, h.fed_injOn, h.fed_surjOn⟩

end Wired

end Plan

namespace Graph

variable {g : Graph} {naming : Naming}

/-- The look-up by name follows the edge: the output's entry is that of the node at position `j`
    and of no other output, the input's entry that of the node that this one names as its second
    operand and of no other input, and the latter has a history. -/
structure FedByEdge (g : Graph) (p : Plan) (o : OutputBinding) (i : InputBinding) (j id : Nat)
    (n m : Node) : Prop where
  output : g.nodes[j]? = some n ∧ n.kind = .output ∧ o.Describes g n
  outputOnly : ∀ (j' : Nat) (n' : Node), g.nodes[j']? = some n' → n'.kind = .output →
    o.name = Identifier.ofText n'.displayName → j' = j
  edge : n.operands[1]?.map UInt64.toNat = some id
  input : g.nodes[id]? = some m ∧ m.kind = .input ∧ i.Describes m
  inputOnly : ∀ (id' : Nat) (m' : Node), g.nodes[id']? = some m' → m'.kind = .input →
    i.name = Identifier.ofText m'.displayName → id' = id
  found : p.fedInput? o = some i
  recurrent : i.recurrence.isSome

/-- A name that the nodes of a kind have apart belongs to one position. -/
theorem position_unique {p : Node → Bool} {name : Node → String}
    (h : ((g.nodes.filter p).map name).Nodup) {j j' : Nat} {n n' : Node}
    (hn : g.nodes[j]? = some n) (hn' : g.nodes[j']? = some n') (hp : p n) (hp' : p n')
    (heq : name n = name n') : j' = j := by
  obtain ⟨hj, rfl⟩ := List.getElem?_eq_some_iff.mp hn
  obtain ⟨hj', rfl⟩ := List.getElem?_eq_some_iff.mp hn'
  rw [List.Nodup, List.pairwise_map, List.pairwise_filter, List.pairwise_iff_getElem] at h
  rcases Nat.lt_trichotomy j j' with hlt | heq' | hlt
  · exact absurd heq (h j j' hj hj' hlt hp hp')
  · exact heq'.symm
  · exact absurd heq.symm (h j' j hj' hj hlt hp' hp)

/-- The outputs of a plan have distinct names, so none is listed twice. -/
theorem outputs_nodup (h : g.Acceptable) : (g.planOf naming).outputs.Nodup := by
  refine (Draft.signatureOrder_perm _).nodup_iff.mpr ?_
  refine List.Nodup.of_map OutputBinding.name ?_
  rw [List.map_map]
  exact h.outputNames

theorem fedByEdge (h : g.Acceptable) {o : OutputBinding}
    (ho : o ∈ (g.planOf naming).recurrentOutputs) :
    ∃ i j id n m, g.FedByEdge (g.planOf naming) o i j id n m := by
  obtain ⟨ho, target, hf⟩ := Plan.mem_recurrentOutputs.mp ho
  obtain ⟨n, hn, hout, rfl⟩ := mem_planOf_outputs.mp ho
  obtain ⟨j, hj⟩ := List.mem_iff_getElem?.mp hn
  have hfit := h.outputFits hj hout
  have hr : n.isRecurrent := by
    by_contra hr
    simp [outputBinding, hr] at hf
  obtain ⟨m, hm, hin, hrec⟩ := hfit.feedback hr
  obtain ⟨edge, hedge, hget⟩ := Option.bind_eq_some_iff.mp hm
  have hmem : m ∈ g.nodes := List.mem_of_getElem? hget
  have hi : m.isInput := Node.isInput_iff.mpr hin
  have hfound : (g.outputBinding n).feeds = some m.inputBinding.name := by
    simp [outputBinding, hr, hm, Node.inputBinding]
  obtain ⟨k, hk⟩ := Option.isSome_iff_exists.mp hrec
  have hslot := @mem_recurrentInputs_of_node g naming m k hmem hin hk
  refine ⟨m.inputBinding, j, edge.toNat, n, m, ?_⟩
  constructor
  case output => exact ⟨hj, Node.isOutput_iff.mp hout, outputBinding_describes hfit⟩
  case outputOnly =>
    intro j' n' hj' hk' heq
    exact position_unique h.outputNames hj hj' hout (Node.isOutput_iff.mpr hk') heq
  case edge => rw [hedge, Option.map_some]
  case input => exact ⟨hget, hin, Node.inputBinding_describes (h.inputFits hmem hi) hi⟩
  case inputOnly =>
    intro id' m' hid' hk' heq
    have hi' : m'.isInput := Node.isInput_iff.mpr hk'
    refine position_unique (inputSymbols_nodup h) hget hid' hi hi' ?_
    exact heq.trans (symbol_of_input hi').symm
  case found => exact (wired_planOf h naming).fedInput?_eq hslot hfound
  case recurrent => simp [Node.inputBinding, hk]

end Graph

end EvaluatorGen
