import EvaluatorGen.Graph.Basic

/-!
The consumers of a node.

The counts are kept in one list and raised node by node, operand by operand. What comes out is
said without that list: entry `i` is the number of nodes that name `i` among their operands
(`consumerCounts_getElem?`). A node that names `i` twice counts once, and an operand that is no
position of the graph counts nowhere. Graphs with the same operands have the same counts
(`consumerCounts_congr`).
-/
namespace EvaluatorGen

/-- Whether the node names a position among its operands. -/
def Node.consumes (n : Node) (i : Nat) : Bool := n.operands.any fun o => o.toNat == i

theorem Node.consumes_iff {n : Node} {i : Nat} :
    n.consumes i ↔ ∃ o ∈ n.operands, o.toNat = i := by
  simp [Node.consumes]

namespace Graph

/-! ### The distinct operands of one node -/

/-- What is seen after some operands: what was seen before, and those below the bound. -/
theorem foldl_distinct {bound : Nat} {os : List UInt64} {seen result : List Nat}
    (hs : seen.Nodup)
    (h : os.foldl (fun seen o => if o.toNat < bound ∧ o.toNat ∉ seen then seen ++ [o.toNat]
      else seen) seen = result) :
    result.Nodup ∧ ∀ i, i ∈ result ↔ i ∈ seen ∨ i < bound ∧ ∃ o ∈ os, o.toNat = i := by
  induction os generalizing seen with
  | nil =>
    subst h
    exact ⟨hs, by simp⟩
  | cons o os ih =>
    rw [List.foldl_cons] at h
    simp only [List.mem_cons, exists_eq_or_imp]
    by_cases ho : o.toNat < bound ∧ o.toNat ∉ seen
    · rw [if_pos ho] at h
      have hs' : (seen ++ [o.toNat]).Nodup := by
        rw [List.nodup_append]
        refine ⟨hs, by simp, ?_⟩
        rintro a ha b hb rfl
        rw [List.mem_singleton] at hb
        exact ho.2 (hb ▸ ha)
      obtain ⟨hn, hm⟩ := ih hs' h
      refine ⟨hn, fun i => ?_⟩
      rw [hm, List.mem_append, List.mem_singleton]
      grind
    · rw [if_neg ho] at h
      obtain ⟨hn, hm⟩ := ih hs h
      refine ⟨hn, fun i => ?_⟩
      rw [hm]
      grind

theorem count_distinctOperands (bound : Nat) (n : Node) {i : Nat} (hi : i < bound) :
    (distinctOperands bound n).count i = if n.consumes i then 1 else 0 := by
  obtain ⟨hnodup, hmem⟩ := foldl_distinct List.nodup_nil (rfl : distinctOperands bound n = _)
  have hm : i ∈ distinctOperands bound n ↔ n.consumes i := by
    rw [Node.consumes_iff]
    exact (hmem i).trans (by simp [hi])
  rw [hnodup.count]
  simp only [hm]

/-! ### Raising the counts -/

theorem foldl_bump_getElem? (ids counts : List Nat) (i : Nat) :
    (ids.foldl bump counts)[i]? = counts[i]?.map (· + ids.count i) := by
  induction ids generalizing counts with
  | nil => simp
  | cons id ids ih =>
    rw [List.foldl_cons, ih, bump, List.getElem?_modify, List.count_cons]
    cases counts[i]? with
    | none => rfl
    | some c =>
      by_cases h : id = i
      · subst h
        simp only [Option.map_some, Option.map_eq_map, if_true, beq_self_eq_true,
          Option.some.injEq]
        omega
      · simp [h]

theorem foldl_nodes_getElem? (bound : Nat) (ns : List Node) (counts : List Nat) {i : Nat}
    (hi : i < bound) :
    (ns.foldl (fun counts n => (distinctOperands bound n).foldl bump counts) counts)[i]? =
      counts[i]?.map (· + ns.countP (·.consumes i)) := by
  induction ns generalizing counts with
  | nil => simp
  | cons n ns ih =>
    rw [List.foldl_cons, ih, foldl_bump_getElem?, count_distinctOperands bound n hi,
      List.countP_cons, Option.map_map]
    congr 1
    funext c
    simp only [Function.comp_apply]
    omega

/-- Entry `i` of the counts is the number of nodes that name `i` among their operands. -/
theorem consumerCounts_getElem? (g : Graph) {i : Nat} (hi : i < g.size) :
    g.consumerCounts[i]? = some (g.nodes.countP (·.consumes i)) := by
  rw [consumerCounts, foldl_nodes_getElem? g.size g.nodes _ hi, List.getElem?_replicate, if_pos hi]
  simp

/-- The counts are read off the operands alone. -/
theorem consumerCounts_congr {g g' : Graph}
    (h : g.nodes.map Node.operands = g'.nodes.map Node.operands) :
    g.consumerCounts = g'.consumerCounts := by
  have hfold : ∀ (ns : List Node) (bound : Nat) (counts : List Nat),
      ns.foldl (fun counts n => (distinctOperands bound n).foldl bump counts) counts =
        (ns.map Node.operands).foldl
          (fun counts os => (distinctOperands bound { uid := "", kind := .input, operands := os
            }).foldl bump counts) counts := by
    intro ns bound counts
    rw [List.foldl_map]
    rfl
  have hsize : g.size = g'.size := by
    have hlen := congrArg List.length h
    rwa [List.length_map, List.length_map] at hlen
  rw [consumerCounts, consumerCounts, hfold, hfold, h, hsize]

end Graph

end EvaluatorGen
