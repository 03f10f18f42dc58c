import EvaluatorGen.Proofs.Lowering.Indexed
import Mathlib.Algebra.BigOperators.Fin
import Mathlib.Combinatorics.Enumerative.DoubleCounting

/-!
Edges of a graph, counted at both ends.

An edge goes from a node to a position of the graph that it names among its operands. It is one
edge however often the node names the position, and a node may name itself or a later one.

1. `card_consumers`, `card_operandIds`: the edges into a position and those out of a node, each as
   the size of a set.
2. `sum_card_consumers`: both ways to count come to the same.
3. `consumerCounts_eq_card`: the counts are the edges into each position, whatever the graph.
-/
namespace EvaluatorGen.Graph

open Finset

variable (g : Graph)

/-- The nodes that name `i` among their operands, by their own positions. -/
def consumers (i : Nat) : Finset (Fin g.nodes.length) :=
  {j | i ∈ g.nodes[j].operands.map UInt64.toNat}

/-- What a node names among its operands, without what is no position of the graph. -/
def operandIds (n : Node) : Finset UInt64 :=
  {o ∈ n.operands.toFinset | o.toNat < g.size}

theorem card_filter_getElem {α : Type} (l : List α) (p : α → Bool) :
    #{j : Fin l.length | p l[j]} = l.countP p := by
  calc #{j : Fin l.length | p l[j]}
      = #{j ∈ (List.finRange l.length).toFinset | p l[j]} := by rw [List.toFinset_finRange]
    _ = (List.finRange l.length).countP (p ∘ l.get) := by
        rw [(List.nodup_finRange _).card_eq_countP]
        simp only [Bool.decide_eq_true]
        rfl
    _ = ((List.finRange l.length).map l.get).countP p := List.countP_map.symm
    _ = l.countP p := by rw [List.map_get_finRange]

theorem consumers_eq (i : Nat) :
    g.consumers i = ({j | g.nodes[j].consumes i} : Finset (Fin g.nodes.length)) := by
  ext j
  rw [consumers, mem_filter_univ, mem_filter_univ, List.mem_map, Node.consumes_iff]

theorem mem_operandIds {n : Node} {o : UInt64} :
    o ∈ g.operandIds n ↔ o ∈ n.operands ∧ o.toNat < g.size := by
  rw [operandIds, mem_filter, List.mem_toFinset]

/-- The edges into a position. -/
theorem card_consumers (i : Nat) : #(g.consumers i) = g.nodes.countP (·.consumes i) := by
  rw [consumers_eq]
  exact card_filter_getElem g.nodes (·.consumes i)

/-- The edges out of a node. -/
theorem card_operandIds (n : Node) :
    #(g.operandIds n) = #{i : Fin g.size | n.consumes i} := by
  refine card_bij (fun o ho => ⟨o.toNat, (g.mem_operandIds.mp ho).2⟩) ?_ ?_ ?_
  · intro o ho
    rw [mem_filter_univ, Node.consumes_iff]
    exact ⟨o, (g.mem_operandIds.mp ho).1, rfl⟩
  · intro o _ o' _ h
    exact UInt64.toNat_inj.mp (Fin.mk.inj h)
  · intro i hi
    rw [mem_filter_univ, Node.consumes_iff] at hi
    obtain ⟨o, ho, heq⟩ := hi
    exact ⟨o, g.mem_operandIds.mpr ⟨ho, heq ▸ i.isLt⟩, Fin.ext heq⟩

/-- Both ends of the edges come to the same number. -/
theorem sum_card_consumers :
    ∑ i : Fin g.size, #(g.consumers i) = (g.nodes.map fun n => #(g.operandIds n)).sum := by
  calc ∑ i : Fin g.size, #(g.consumers i)
      = ∑ i : Fin g.size, #{j : Fin g.nodes.length | g.nodes[j].consumes i} := by
        simp only [consumers_eq]
    _ = ∑ j : Fin g.nodes.length, #{i : Fin g.size | g.nodes[j].consumes i} :=
        sum_card_bipartiteAbove_eq_sum_card_bipartiteBelow _
    _ = ∑ j : Fin g.nodes.length, #(g.operandIds g.nodes[j]) :=
        sum_congr rfl fun j _ => (g.card_operandIds _).symm
    _ = (g.nodes.map fun n => #(g.operandIds n)).sum :=
        Fin.sum_univ_fun_getElem g.nodes fun n => #(g.operandIds n)

/-- Counting consumers reads no count out of range, and comes to one count for each position of the
    graph, the number of nodes that name it. All counts together are the distinct operands of the
    nodes. The operands may repeat, name the node itself or a later one, or no node at all. -/
theorem consumerCounts_eq_card :
    Indexed.consumerCounts g = .ok g.consumerCounts ∧
    g.consumerCounts = List.ofFn (fun i : Fin g.size => #(g.consumers i)) ∧
    g.consumerCounts.sum = (g.nodes.map fun n => #(g.operandIds n)).sum := by
  obtain ⟨hread, hlength⟩ := Indexed.consumerCounts_eq g
  have hcounts : g.consumerCounts = List.ofFn fun i : Fin g.size => #(g.consumers i) := by
    apply List.ext_getElem?
    intro i
    rw [List.getElem?_ofFn]
    by_cases hi : i < g.size
    · rw [dif_pos hi, consumerCounts_getElem? g hi, card_consumers]
    · rw [dif_neg hi, List.getElem?_eq_none (hlength ▸ Nat.le_of_not_lt hi)]
  refine ⟨hread, hcounts, ?_⟩
  rw [hcounts, List.sum_ofFn, sum_card_consumers]

/-- A node that names itself twice, a later one and none, before one that names itself. -/
example : consumerCounts ⟨[{ uid := "x", kind := .input, operands := [0, 0, 1, 7] },
    { uid := "y", kind := .input, operands := [1] }]⟩ = [1, 2] := by decide

end EvaluatorGen.Graph
