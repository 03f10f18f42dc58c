import EvaluatorGen.Proofs.Consumers
import EvaluatorGen.Proofs.Identifiers

/-!
Stages that are computed once for all their consumers.

Lowering decides at a node whether its stage is shared, from counts that are taken over the whole
graph before.

1. `isShared_iff`: the counts say whether two nodes of the graph name the position.
2. `mem_body_computeRoot`: which stages have a directive.
3. `sharedStage_once`: these are the sums, differences and products that two nodes name, and each
   has one directive, right behind its definition. That there is one is due to the names: a second
   directive would come with a second definition.
-/
namespace EvaluatorGen

/-- More than one entry satisfies `p` if entries at two positions do. -/
theorem one_lt_countP_iff {α : Type} {p : α → Bool} {xs : List α} :
    1 < xs.countP p ↔
      ∃ i j : Nat, i < j ∧ ∃ a b, xs[i]? = some a ∧ xs[j]? = some b ∧ p a ∧ p b := by
  refine ⟨?_, ?_⟩
  · intro h
    induction xs with
    | nil => simp at h
    | cons x xs ih =>
      rw [List.countP_cons] at h
      by_cases hx : p x
      · have hpos : 0 < xs.countP p := by
          rw [if_pos hx] at h
          omega
        obtain ⟨b, hb, hpb⟩ := List.countP_pos_iff.mp hpos
        obtain ⟨j, hj⟩ := List.mem_iff_getElem?.mp hb
        exact ⟨0, j + 1, Nat.succ_pos j, x, b, rfl, hj, hx, hpb⟩
      · rw [if_neg hx] at h
        obtain ⟨i, j, hlt, a, b, ha, hb, hp⟩ := ih h
        exact ⟨i + 1, j + 1, Nat.succ_lt_succ hlt, a, b, ha, hb, hp⟩
  · rintro ⟨i, j, hlt, a, b, ha, hb, hpa, hpb⟩
    -- Cut before the later position: each of the two parts has one of the entries.
    have ha' : (xs.take j)[i]? = some a := by rwa [List.getElem?_take_of_lt hlt]
    have hb' : (xs.drop j)[0]? = some b := by rwa [List.getElem?_drop]
    have hfront : 0 < (xs.take j).countP p :=
      List.countP_pos_iff.mpr ⟨a, List.mem_of_getElem? ha', hpa⟩
    have hback : 0 < (xs.drop j).countP p :=
      List.countP_pos_iff.mpr ⟨b, List.mem_of_getElem? hb', hpb⟩
    rw [← List.take_append_drop j xs, List.countP_append]
    omega

namespace Graph

variable {g : Graph} {naming : Naming} {n : Node} {id : Nat} {s : String}

/-- Two nodes of the graph name the node at position `id` among their operands. -/
def ConsumedTwice (g : Graph) (id : Nat) : Prop :=
  ∃ i j : Nat, i < j ∧ ∃ a b, g.nodes[i]? = some a ∧ g.nodes[j]? = some b ∧
    (∃ o ∈ a.operands, o.toNat = id) ∧ ∃ o ∈ b.operands, o.toNat = id

theorem isShared_iff (hi : id < g.size) : g.isShared id ↔ g.ConsumedTwice id := by
  simp only [isShared, List.getD_eq_getElem?_getD, consumerCounts_getElem? g hi,
    Option.getD_some, decide_eq_true_iff, one_lt_countP_iff, Node.consumes_iff, ConsumedTwice]

/-! ### The directives of one node -/

theorem callee_of_arithmetic (h : n.isArithmetic) : ∃ c, n.callee? = some c := by
  unfold Node.isArithmetic at h
  split at h
  · rename_i op a hk
    rw [decide_eq_true_iff] at h
    simp only [List.mem_cons, List.not_mem_nil, or_false] at h
    rcases h with rfl | rfl | rfl | rfl <;> simp [Node.callee?, hk]
  · cases h

/-- A shared stage is its definition and the directive. -/
theorem statements_shared (ha : n.isArithmetic) (hs : g.isShared id) :
    ∃ value, g.statements id n = [.func n.symbol (.expr value), .computeRoot n.symbol] := by
  obtain ⟨c, hc⟩ := callee_of_arithmetic ha
  refine ⟨g.callExpr n c, ?_⟩
  cases hk : n.kind with
  | operator op a => simp [statements, hk, hc, ha, hs]
  | _ => simp [Node.isArithmetic, hk] at ha

theorem mem_statements_computeRoot :
    .computeRoot s ∈ g.statements id n ↔ n.isArithmetic ∧ g.isShared id ∧ n.symbol = s := by
  refine ⟨?_, ?_⟩
  · intro h
    cases hk : n.kind with
    | parameter | constant =>
      simp only [statements, hk, Node.leafStatements] at h
      cases hq : n.isQuantized <;> simp [hq] at h
    | operator op a =>
      cases hc : n.callee? with
      | none => simp [statements, hk, hc] at h
      | some c =>
        simp only [statements, hk, hc, List.mem_cons, reduceCtorEq, false_or] at h
        split at h
        · rename_i hb
          rw [Bool.and_eq_true] at hb
          exact ⟨hb.1, hb.2, (Stmt.computeRoot.inj (List.mem_singleton.mp h)).symm⟩
        · cases h
    | quantizeMarker => cases hc : n.callee? <;> simp [statements, hk, hc] at h
    | input | output => simp [statements, hk] at h
  · rintro ⟨ha, hs, rfl⟩
    obtain ⟨value, hv⟩ := statements_shared ha hs
    simp [hv]

/-- A part of the pipeline that has a directive defines its stage as well. -/
theorem declared_of_computeRoot {ps : List (Node × Nat)}
    (h : .computeRoot s ∈ ps.flatMap fun p => g.statements p.2 p.1) :
    s ∈ (ps.flatMap fun p => g.statements p.2 p.1).filterMap Stmt.declared? := by
  obtain ⟨p, hp, hs⟩ := List.mem_flatMap.mp h
  obtain ⟨ha, hshared, rfl⟩ := mem_statements_computeRoot.mp hs
  obtain ⟨value, hv⟩ := statements_shared ha hshared
  refine List.mem_filterMap.mpr ⟨.func p.1.symbol (.expr value), ?_, rfl⟩
  exact List.mem_flatMap.mpr ⟨p, hp, by simp [hv]⟩

/-! ### The directives of a pipeline -/

theorem mem_body_computeRoot :
    .computeRoot s ∈ (g.planOf naming).body ↔
      ∃ id n, g.nodes[id]? = some n ∧ n.isArithmetic ∧ g.isShared id ∧ n.symbol = s := by
  rw [planOf, List.mem_flatMap]
  simp only [Prod.exists, List.mk_mem_zipIdx_iff_getElem?, mem_statements_computeRoot]
  exact exists_comm

/-- The names that a pipeline declares are distinct. -/
theorem declared_nodup (h : g.Acceptable) :
    ((g.planOf naming).body.filterMap Stmt.declared?).Nodup := by
  have hall : (g.planOf naming).identifiers.Nodup :=
    (planOf_identifiers_perm h).nodup_iff.mpr (identifiers_nodup h)
  refine hall.sublist ?_
  unfold Plan.identifiers
  simp only [List.append_assoc]
  exact (List.sublist_append_left _ _).trans
    ((List.sublist_append_right _ _).trans (List.sublist_append_right _ _))

/-- A shared stage and its directive stand side by side, and the rest of the pipeline has neither
    a definition of that name nor a directive for it. -/
theorem body_split (h : g.Acceptable) (hn : g.nodes[id]? = some n) (ha : n.isArithmetic)
    (hs : g.isShared id) :
    ∃ front value after,
      (g.planOf naming).body =
        front ++ .func n.symbol (.expr value) :: .computeRoot n.symbol :: after ∧
      ∀ t ∈ front ++ after, t ≠ .computeRoot n.symbol ∧ t.declared? ≠ some n.symbol := by
  obtain ⟨before, behind, hsplit⟩ :=
    List.append_of_mem (List.mk_mem_zipIdx_iff_getElem?.mpr hn)
  obtain ⟨value, hv⟩ := statements_shared ha hs
  have hbody : (g.planOf naming).body =
      (before.flatMap fun p => g.statements p.2 p.1) ++
        .func n.symbol (.expr value) :: .computeRoot n.symbol ::
          behind.flatMap fun p => g.statements p.2 p.1 := by
    rw [planOf, hsplit, List.flatMap_append, List.flatMap_cons, hv]
    rfl
  refine ⟨_, value, _, hbody, ?_⟩
  -- Elsewhere a directive for this name, or a definition of it, would declare the name again.
  have hnodup := @declared_nodup g naming h
  have hname : Stmt.declared? (.func n.symbol (.expr value)) = some n.symbol := rfl
  rw [hbody, List.filterMap_append, List.filterMap_cons_some hname, List.filterMap_cons_none rfl]
    at hnodup
  obtain ⟨hfresh, -⟩ := List.nodup_cons.mp (List.perm_middle.nodup_iff.mp hnodup)
  rw [List.mem_append, not_or] at hfresh
  intro t ht
  refine ⟨?_, ?_⟩
  · rintro rfl
    rcases List.mem_append.mp ht with ht | ht
    · exact hfresh.1 (declared_of_computeRoot ht)
    · exact hfresh.2 (declared_of_computeRoot ht)
  · intro hd
    rcases List.mem_append.mp ht with ht | ht
    · exact hfresh.1 (List.mem_filterMap.mpr ⟨t, ht, hd⟩)
    · exact hfresh.2 (List.mem_filterMap.mpr ⟨t, ht, hd⟩)

/-- A name has a directive exactly if it is the symbol of a sum, a difference or a product that
    two nodes of the graph name. The pipeline then has one such directive, and it stands right
    behind the one statement that declares the name, the definition of the stage. -/
theorem sharedStage_once {plan : Plan} (h : g.lower naming = .ok plan) (s : String) :
    (.computeRoot s ∈ plan.body ↔
      ∃ id n op a, g.nodes[id]? = some n ∧ n.kind = .operator op a ∧
        op ∈ ["Plus", "Minus", "ElementTimes", "Times"] ∧ Identifier.ofText n.uid = s ∧
        g.ConsumedTwice id) ∧
    (.computeRoot s ∈ plan.body →
      ∃ front value after,
        plan.body = front ++ .func s (.expr value) :: .computeRoot s :: after ∧
        ∀ t ∈ front ++ after, t ≠ .computeRoot s ∧ t.declared? ≠ some s) := by
  obtain ⟨hacc, rfl⟩ := lower_eq_ok_iff.mp h
  rw [mem_body_computeRoot]
  refine ⟨⟨?_, ?_⟩, ?_⟩
  · rintro ⟨id, n, hn, ha, hs, rfl⟩
    have hi : id < g.size := (List.getElem?_eq_some_iff.mp hn).1
    cases hk : n.kind with
    | operator op a =>
      refine ⟨id, n, op, a, hn, hk, ?_, ?_, (isShared_iff hi).mp hs⟩
      · simpa [Node.isArithmetic, hk] using ha
      · simp [Node.symbol, hk]
    | _ => simp [Node.isArithmetic, hk] at ha
  · rintro ⟨id, n, op, a, hn, hk, hop, rfl, hs⟩
    have hi : id < g.size := (List.getElem?_eq_some_iff.mp hn).1
    refine ⟨id, n, hn, ?_, (isShared_iff hi).mpr hs, ?_⟩
    · simpa [Node.isArithmetic, hk] using hop
    · simp [Node.symbol, hk]
  · rintro ⟨id, n, hn, ha, hs, rfl⟩
    exact body_split hacc hn ha hs

/-- The sum of the loop is named by both outputs, the product by the sum alone. -/
theorem runningSum_sharedStage :
    runningSum.lower {} = .ok (runningSum.planOf {}) ∧
    .computeRoot "s" ∈ (runningSum.planOf {}).body ∧
    .computeRoot "p" ∉ (runningSum.planOf {}).body := by
  refine ⟨runningSum_lower, ?_, ?_⟩
  · refine (sharedStage_once runningSum_lower "s").1.mpr ⟨4, _, "Plus", {}, rfl, rfl, ?_⟩
    refine ⟨by decide, by decide +kernel, 5, 6, by decide, _, _, rfl, rfl, ?_⟩
    decide +kernel
  · decide +kernel

end Graph

end EvaluatorGen
