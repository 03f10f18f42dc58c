import EvaluatorGen.Proofs.Consumers
import EvaluatorGen.Proofs.Identifiers
import Mathlib.Data.List.FinRange

/-!
The order in which a graph lists its nodes.

A graph may list its nodes in any order in which operands stand before the nodes that name them.
Lowering visits them in that order, so two walks over the same nodes differ at every step. What
they come to is the same.

1. `Reordered`: one graph lists the nodes of another in the order of a permutation, with the
   operands renumbered. `Graph.permute` computes it (`reordered_permute`).
2. `Reordered.map_perm`: whatever is said alike of a node before and after it moved gives lists
   that are permutations of each other.
3. `Reordered.statements_eq` and its companions: a node contributes the same to both plans.
4. `Reordered.acceptable_iff`: with operands before their nodes, both graphs can be lowered or
   neither can.
5. `lower_reordered`: so the signatures are equal, and the leaves and statements are the same up
   to their order.
-/
namespace EvaluatorGen

/-- Operators, markers and outputs. The operands of any other node are not looked at. -/
def Node.takesOperands (n : Node) : Bool :=
  match n.kind with
  | .operator _ _ | .quantizeMarker | .output => true
  | .parameter | .constant | .input => false

namespace Graph

/-! ### The same nodes in another order -/

/-- The operands of operators, markers and outputs stand before the node that names them, and
    so are in range. -/
def Ordered (g : Graph) : Prop :=
  ∀ (id : Nat) (n : Node), g.nodes[id]? = some n → n.takesOperands →
    ∀ o ∈ n.operands, o.toNat < id

/-- `Ordered`, node by node. -/
def isOrdered (g : Graph) : Bool :=
  g.nodes.zipIdx.all fun p =>
    !p.1.takesOperands || p.1.operands.all fun o => decide (o.toNat < p.2)

theorem isOrdered_iff (g : Graph) : g.isOrdered ↔ g.Ordered := by
  simp only [isOrdered, List.all_eq_true, Bool.or_eq_true, Bool.not_eq_true', decide_eq_true_iff,
    Prod.forall, List.mk_mem_zipIdx_iff_getElem?]
  refine ⟨?_, ?_⟩
  · intro h id n hn ht
    exact (h n id hn).resolve_left (by simp [ht])
  · intro h n id hn
    cases ht : n.takesOperands with
    | false => exact .inl rfl
    | true => exact .inr (h id n hn ht)

instance (g : Graph) : Decidable g.Ordered := decidable_of_iff _ g.isOrdered_iff

/-- The id of an operand when the node at each position `i` moves to `σ i`. An id out of range
    stays as it is. -/
def Renumbered {size : Nat} (σ : Equiv.Perm (Fin size)) (o o' : UInt64) : Prop :=
  if h : o.toNat < size then o'.toNat = σ ⟨o.toNat, h⟩ else o' = o

/-- `g'` lists the nodes of `g` in the order of `σ`: the node at each position `i` stands at
    position `σ i`, with its operands renumbered. -/
structure Reordered (g : Graph) (σ : Equiv.Perm (Fin g.size)) (g' : Graph) : Prop where
  size : g'.size = g.size
  node : ∀ (i : Fin g.size) (n : Node), g.nodes[i.val]? = some n →
    ∃ os, g'.nodes[(σ i).val]? = some { n with operands := os } ∧
      List.Forall₂ (Renumbered σ) n.operands os

/-- The node `n` at position `i` of `g` is the node `n'` at position `i'` of `g'`. -/
structure Moved (g g' : Graph) (σ : Equiv.Perm (Fin g.size)) (i : Nat) (n : Node) (i' : Nat)
    (n' : Node) : Prop where
  lt : i < g.size
  old : g.nodes[i]? = some n
  position : i' = σ ⟨i, lt⟩
  new : g'.nodes[i']? = some n'
  same : n' = { n with operands := n'.operands }
  operands : List.Forall₂ (Renumbered σ) n.operands n'.operands

variable {g g' : Graph} {σ : Equiv.Perm (Fin g.size)} {i i' : Nat} {n n' : Node}

/-- What does not depend on the operands is the same for a moved node. -/
theorem Moved.eq (h : Moved g g' σ i n i' n') {β : Sort*} (P : Node → β)
    (hP : ∀ m os, P { m with operands := os } = P m) : P n' = P n := by
  rw [h.same, hP]

theorem Moved.kind (h : Moved g g' σ i n i' n') : n'.kind = n.kind :=
  h.eq Node.kind fun _ _ => rfl

namespace Reordered

/-! ### Moved nodes -/

theorem moved (r : g.Reordered σ g') (h : g.nodes[i]? = some n) :
    ∃ i' n', Moved g g' σ i n i' n' := by
  obtain ⟨hi, -⟩ := List.getElem?_eq_some_iff.mp h
  obtain ⟨os, hnew, hos⟩ := r.node ⟨i, hi⟩ n h
  exact ⟨_, _, hi, h, rfl, hnew, rfl, hos⟩

theorem moved_of_new (r : g.Reordered σ g') (h : g'.nodes[i']? = some n') :
    ∃ i n, Moved g g' σ i n i' n' := by
  have hi' : i' < g.size := r.size ▸ (List.getElem?_eq_some_iff.mp h).1
  obtain ⟨i, hi⟩ := σ.surjective ⟨i', hi'⟩
  have hn : g.nodes[i.val]? = some g.nodes[i.val] := List.getElem?_eq_getElem i.isLt
  obtain ⟨j, m, hm⟩ := r.moved hn
  have hj : j = i' := by
    rw [hm.position, hi]
  subst hj
  rw [hm.new] at h
  cases h
  exact ⟨i, _, hm⟩

/-- A condition on every node carries over if it does for each node that moves. -/
theorem forall_nodes_iff (r : g.Reordered σ g') (Q Q' : Nat → Node → Prop)
    (h : ∀ {i n i' n'}, Moved g g' σ i n i' n' → (Q' i' n' ↔ Q i n)) :
    (∀ i n, g'.nodes[i]? = some n → Q' i n) ↔ ∀ i n, g.nodes[i]? = some n → Q i n := by
  refine ⟨?_, ?_⟩
  · intro hall i n hn
    obtain ⟨i', n', hm⟩ := r.moved hn
    exact (h hm).mp (hall i' n' hm.new)
  · intro hall i' n' hn'
    obtain ⟨i, n, hm⟩ := r.moved_of_new hn'
    exact (h hm).mpr (hall i n hm.old)

theorem forall_mem_iff (r : g.Reordered σ g') (Q Q' : Node → Prop)
    (h : ∀ {i n i' n'}, Moved g g' σ i n i' n' → (Q' n' ↔ Q n)) :
    (∀ n ∈ g'.nodes, Q' n) ↔ ∀ n ∈ g.nodes, Q n := by
  have hpos := r.forall_nodes_iff (fun _ => Q) (fun _ => Q') h
  simp only [List.mem_iff_getElem?]
  exact ⟨fun hall n ⟨i, hi⟩ => hpos.mp (fun i n hn => hall n ⟨i, hn⟩) i n hi,
    fun hall n ⟨i, hi⟩ => hpos.mpr (fun i n hn => hall n ⟨i, hn⟩) i n hi⟩

/-! ### Lists over all nodes -/

theorem perm_of_getElem? {α : Type} {k : Nat} (σ : Equiv.Perm (Fin k)) {l l' : List α}
    (hl : l.length = k) (hl' : l'.length = k)
    (h : ∀ i : Fin k, l'[(σ i).val]? = l[i.val]?) : l'.Perm l := by
  subst hl
  have hnew : List.ofFn (fun i : Fin l.length => l'.get (i.cast hl'.symm)) = l' := by
    apply List.ext_getElem
    · simp [hl']
    · intro i _ _
      simp
  have hold : List.ofFn ((fun i : Fin l.length => l'.get (i.cast hl'.symm)) ∘ σ) = l := by
    apply List.ext_getElem
    · simp
    · intro i _ hi
      have hσ : (σ ⟨i, hi⟩).val < l'.length := by
        rw [hl']
        exact (σ ⟨i, hi⟩).isLt
      have hget := h ⟨i, hi⟩
      rw [List.getElem?_eq_getElem hσ, List.getElem?_eq_getElem hi, Option.some.injEq] at hget
      simpa using hget
  have hp := σ.ofFn_comp_perm fun i : Fin l.length => l'.get (i.cast hl'.symm)
  rw [hnew, hold] at hp
  exact hp.symm

/-- What is said alike of every node before and after it moved. -/
theorem map_perm (r : g.Reordered σ g') {α : Type} (f f' : Nat → Node → α)
    (h : ∀ {i n i' n'}, Moved g g' σ i n i' n' → f' i' n' = f i n) :
    (g'.nodes.zipIdx.map fun p => f' p.2 p.1).Perm (g.nodes.zipIdx.map fun p => f p.2 p.1) := by
  have hlen : (g.nodes.zipIdx.map fun p => f p.2 p.1).length = g.size := by simp [Graph.size]
  have hlen' : (g'.nodes.zipIdx.map fun p => f' p.2 p.1).length = g.size := by
    rw [← r.size]
    simp [Graph.size]
  refine perm_of_getElem? σ hlen hlen' ?_
  intro i
  have hn : g.nodes[i.val]? = some g.nodes[i.val] := List.getElem?_eq_getElem i.isLt
  obtain ⟨i', n', hm⟩ := r.moved hn
  have hnew := hm.new
  have hval := h hm
  rw [hm.position] at hnew hval
  simp only [List.getElem?_map, List.getElem?_zipIdx, Nat.zero_add, hnew, hn, Option.map_some,
    hval]

theorem flatMap_perm (r : g.Reordered σ g') {α : Type} (f f' : Nat → Node → List α)
    (h : ∀ {i n i' n'}, Moved g g' σ i n i' n' → f' i' n' = f i n) :
    (g'.nodes.zipIdx.flatMap fun p => f' p.2 p.1).Perm
      (g.nodes.zipIdx.flatMap fun p => f p.2 p.1) :=
  (r.map_perm f f' h).flatten

/-- The same for what does not depend on the position. -/
theorem nodes_flatMap_perm (r : g.Reordered σ g') {α : Type} (f f' : Node → List α)
    (h : ∀ {i n i' n'}, Moved g g' σ i n i' n' → f' n' = f n) :
    (g'.nodes.flatMap f').Perm (g.nodes.flatMap f) := by
  have hp := r.flatMap_perm (fun _ => f) (fun _ => f') h
  rwa [flatMap_zipIdx_nodes, flatMap_zipIdx_nodes] at hp

theorem filter_map_perm (r : g.Reordered σ g') {α : Type} {p : Node → Bool} {f f' : Node → α}
    (hp : ∀ m os, p { m with operands := os } = p m)
    (h : ∀ {i n i' n'}, Moved g g' σ i n i' n' → f' n' = f n) :
    ((g'.nodes.filter p).map f').Perm ((g.nodes.filter p).map f) := by
  rw [List.map_eq_flatMap, List.map_eq_flatMap, flatMap_filter_nodes, flatMap_filter_nodes]
  apply r.nodes_flatMap_perm
  intro i n i' n' hm
  rw [h hm, hm.eq p hp]

theorem countP_eq (r : g.Reordered σ g') {p p' : Node → Bool}
    (h : ∀ {i n i' n'}, Moved g g' σ i n i' n' → p' n' = p n) :
    g'.nodes.countP p' = g.nodes.countP p := by
  have hp := r.nodes_flatMap_perm (fun n => [p n]) (fun n => [p' n]) fun hm => by rw [h hm]
  rw [← List.map_eq_flatMap, ← List.map_eq_flatMap] at hp
  have hc := hp.countP_eq id
  rw [List.countP_map, List.countP_map] at hc
  exact hc

/-! ### Operands of moved nodes -/

section Operands

variable {o o' : UInt64} {os os' : List UInt64}

/-- A renumbered operand names the same node, or no node, as before. -/
theorem get?_map (r : g.Reordered σ g') (ho : Renumbered σ o o') {β : Type} (P : Node → β)
    (hP : ∀ m os, P { m with operands := os } = P m) :
    (g'.get? o').map P = (g.get? o).map P := by
  unfold Renumbered at ho
  by_cases h : o.toNat < g.size
  · rw [dif_pos h] at ho
    have hn : g.nodes[o.toNat]? = some g.nodes[o.toNat] := List.getElem?_eq_getElem h
    obtain ⟨i', n', hm⟩ := r.moved hn
    have hnew := hm.new
    rw [hm.position, ← ho] at hnew
    rw [get?, get?, hnew, hn, Option.map_some, Option.map_some, hm.eq P hP]
  · rw [dif_neg h] at ho
    subst ho
    have hold : g.nodes[o'.toNat]? = none := List.getElem?_eq_none (Nat.not_lt.mp h)
    rw [← r.size] at h
    have hnew : g'.nodes[o'.toNat]? = none := List.getElem?_eq_none (Nat.not_lt.mp h)
    rw [get?, get?, hold, hnew]

theorem map_renumbered (h : List.Forall₂ (Renumbered σ) os os') {β : Type} {f f' : UInt64 → β}
    (hf : ∀ {o o'}, Renumbered σ o o' → f' o' = f o) : os'.map f' = os.map f := by
  induction h with
  | nil => rfl
  | cons ho _ ih => rw [List.map_cons, List.map_cons, hf ho, ih]

theorem getElem?_renumbered (h : List.Forall₂ (Renumbered σ) os os') {β : Type}
    {f f' : UInt64 → β} (hf : ∀ {o o'}, Renumbered σ o o' → f' o' = f o) (k : Nat) :
    os'[k]?.map f' = os[k]?.map f := by
  rw [← List.getElem?_map, ← List.getElem?_map, map_renumbered h hf]

theorem operand?_map (r : g.Reordered σ g') (hm : Moved g g' σ i n i' n') (k : Nat) {β : Type}
    (P : Node → β) (hP : ∀ m os, P { m with operands := os } = P m) :
    (g'.operand? n' k).map P = (g.operand? n k).map P := by
  have h := getElem?_renumbered hm.operands (fun ho => r.get?_map ho P hP) k
  rw [operand?, operand?, Option.map_bind, Option.map_bind]
  cases hx : n'.operands[k]? <;> cases hy : n.operands[k]? <;> simp_all

/-- An operand names position `k` before exactly if it names the moved position after. -/
theorem names_iff (ho : Renumbered σ o o') (k : Fin g.size) :
    (o'.toNat == (σ k).val) = (o.toNat == k.val) := by
  rw [Bool.eq_iff_iff, beq_iff_eq, beq_iff_eq]
  unfold Renumbered at ho
  by_cases h : o.toNat < g.size
  · rw [dif_pos h] at ho
    rw [ho, ← Fin.ext_iff, σ.apply_eq_iff_eq, Fin.ext_iff]
  · rw [dif_neg h] at ho
    subst ho
    have hk := k.isLt
    have hσ := (σ k).isLt
    omega

end Operands

/-! ### Contributions of moved nodes -/

theorem symbolAt_eq (r : g.Reordered σ g') {o o' : UInt64} (ho : Renumbered σ o o') :
    g'.symbolAt o' = g.symbolAt o := by
  rw [symbolAt, symbolAt, r.get?_map ho Node.symbol fun _ _ => rfl]

theorem literals_eq (r : g.Reordered σ g') (hm : Moved g g' σ i n i' n') :
    g'.literals n' = g.literals n := by
  have hshape : ∀ k, g'.operandShape n' k = g.operandShape n k := by
    intro k
    rw [operandShape, operandShape, r.operand?_map hm k Node.shape fun _ _ => rfl]
  have hsizes : n'.sizes = n.sizes := hm.eq Node.sizes fun _ _ => rfl
  have hquant : n'.quantization = n.quantization := hm.eq Node.quantization fun _ _ => rfl
  simp only [literals, hm.kind, hshape, hsizes, hquant]

theorem callExpr_eq (r : g.Reordered σ g') (hm : Moved g g' σ i n i' n') (c : Callee) :
    g'.callExpr n' c = g.callExpr n c := by
  have hargs : (n'.operands.map fun o => Expr.ref (g'.symbolAt o)) =
      n.operands.map fun o => Expr.ref (g.symbolAt o) :=
    map_renumbered hm.operands fun ho => by rw [r.symbolAt_eq ho]
  rw [callExpr, callExpr, hargs, r.literals_eq hm]

theorem outputBinding_eq (r : g.Reordered σ g') (hm : Moved g g' σ i n i' n') :
    g'.outputBinding n' = g.outputBinding n := by
  have hsymbol := fun k => r.operand?_map hm k Node.symbol fun _ _ => rfl
  have hname : n'.signatureName = n.signatureName := hm.eq Node.signatureName fun _ _ => rfl
  have huid : n'.uid = n.uid := hm.eq Node.uid fun _ _ => rfl
  have htype : n'.floatType = n.floatType := hm.eq Node.floatType fun _ _ => rfl
  have hrec : n'.isRecurrent = n.isRecurrent := hm.eq Node.isRecurrent fun _ _ => rfl
  simp only [outputBinding, hname, huid, htype, hrec, hsymbol]

theorem consumes_eq (hm : Moved g g' σ i n i' n') (k : Fin g.size) :
    n'.consumes (σ k) = n.consumes k := by
  have h : (n'.operands.map fun o => o.toNat == (σ k).val) =
      n.operands.map fun o => o.toNat == k.val :=
    map_renumbered hm.operands fun ho => names_iff ho k
  have hany := congrArg (List.any · id) h
  simp only [List.any_map] at hany
  exact hany

theorem isShared_eq (r : g.Reordered σ g') (hm : Moved g g' σ i n i' n') :
    g'.isShared i' = g.isShared i := by
  have hi' : i' < g'.size := (List.getElem?_eq_some_iff.mp hm.new).1
  have hcount : g'.nodes.countP (·.consumes i') = g.nodes.countP (·.consumes i) := by
    apply r.countP_eq
    intro j m j' m' hmoved
    rw [hm.position]
    exact consumes_eq hmoved ⟨i, hm.lt⟩
  rw [isShared, isShared, List.getD_eq_getElem?_getD, List.getD_eq_getElem?_getD,
    consumerCounts_getElem? g' hi', consumerCounts_getElem? g hm.lt, hcount]

theorem statements_eq (r : g.Reordered σ g') (hm : Moved g g' σ i n i' n') :
    g'.statements i' n' = g.statements i n := by
  have hcallee : n'.callee? = n.callee? := hm.eq Node.callee? fun _ _ => rfl
  have hleaf : n'.leafStatements = n.leafStatements := hm.eq Node.leafStatements fun _ _ => rfl
  have hsymbol : n'.symbol = n.symbol := hm.eq Node.symbol fun _ _ => rfl
  have harith : n'.isArithmetic = n.isArithmetic := hm.eq Node.isArithmetic fun _ _ => rfl
  simp only [statements, hm.kind, hcallee, hleaf, hsymbol, harith, r.callExpr_eq hm,
    r.isShared_eq hm]

/-! ### Conditions on moved nodes -/

/-- With operands before their nodes in both graphs, only what an operand is decides. -/
theorem available_iff (r : g.Reordered σ g') (ho : g.Ordered) (ho' : g'.Ordered)
    (hm : Moved g g' σ i n i' n') (hk : n.takesOperands) :
    (∀ o ∈ n'.operands, g'.Available i' o) ↔ ∀ o ∈ n.operands, g.Available i o := by
  have hk' : n'.takesOperands := by
    rwa [hm.eq Node.takesOperands fun _ _ => rfl]
  have hkind : ∀ (g : Graph) (o : UInt64),
      (∃ m, g.get? o = some m ∧ m.kind ≠ .output) ↔
        ∃ k, (g.get? o).map Node.kind = some k ∧ k ≠ .output := by
    intro g o
    simp
  have hsame : (n'.operands.map fun o => (g'.get? o).map Node.kind) =
      n.operands.map fun o => (g.get? o).map Node.kind :=
    map_renumbered hm.operands fun ho => r.get?_map ho Node.kind fun _ _ => rfl
  have hall : ∀ (g : Graph) (os : List UInt64),
      (∀ o ∈ os, ∃ m, g.get? o = some m ∧ m.kind ≠ .output) ↔
        ∀ x ∈ os.map fun o => (g.get? o).map Node.kind, ∃ k, x = some k ∧ k ≠ .output := by
    intro g os
    simp only [hkind, List.forall_mem_map]
  have hbefore := ho i n hm.old hk
  have hbefore' := ho' i' n' hm.new hk'
  calc
    (∀ o ∈ n'.operands, g'.Available i' o)
    _ ↔ ∀ o ∈ n'.operands, ∃ m, g'.get? o = some m ∧ m.kind ≠ .output :=
      forall₂_congr fun o hmem => and_iff_right (hbefore' o hmem)
    _ ↔ ∀ o ∈ n.operands, ∃ m, g.get? o = some m ∧ m.kind ≠ .output := by
      rw [hall, hall, hsame]
    _ ↔ ∀ o ∈ n.operands, g.Available i o :=
      forall₂_congr fun o hmem => (and_iff_right (hbefore o hmem)).symm

theorem operandRank?_eq (r : g.Reordered σ g') (hm : Moved g g' σ i n i' n') (k : Nat) :
    g'.operandRank? n' k = g.operandRank? n k :=
  r.operand?_map hm k Node.rank fun _ _ => rfl

theorem operatorFits_iff (r : g.Reordered σ g') (hm : Moved g g' σ i n i' n')
    (ha : (∀ o ∈ n'.operands, g'.Available i' o) ↔ ∀ o ∈ n.operands, g.Available i o)
    {name : String} {a : Attributes} :
    g'.OperatorFits i' n' name a ↔ g.OperatorFits i n name a := by
  have htype : n'.HasValueType = n.HasValueType := hm.eq Node.HasValueType fun _ _ => rfl
  rw [Graph.operatorFits_iff, Graph.operatorFits_iff, ha, hm.operands.length_eq,
    r.operandRank?_eq hm, r.operandRank?_eq hm, htype]

theorem markerFits_iff (hm : Moved g g' σ i n i' n')
    (ha : (∀ o ∈ n'.operands, g'.Available i' o) ↔ ∀ o ∈ n.operands, g.Available i o) :
    g'.MarkerFits i' n' ↔ g.MarkerFits i n := by
  have hlen := hm.operands.length_eq
  obtain ⟨os, rfl⟩ : ∃ os, n' = { n with operands := os } := ⟨_, hm.same⟩
  exact ⟨fun f => ⟨hlen.trans f.arity, ha.mp f.available, f.quantized, f.width, f.float, f.rank⟩,
    fun f => ⟨hlen.symm.trans f.arity, ha.mpr f.available, f.quantized, f.width, f.float, f.rank⟩⟩

theorem outputFits_iff (r : g.Reordered σ g') (hm : Moved g g' σ i n i' n')
    (ha : (∀ o ∈ n'.operands, g'.Available i' o) ↔ ∀ o ∈ n.operands, g.Available i o) :
    g'.OutputFits i' n' ↔ g.OutputFits i n := by
  have hlen := hm.operands.length_eq
  have hfeed : (∃ m, g'.operand? n' 1 = some m ∧ m.kind = .input ∧ m.isRecurrent) ↔
      ∃ m, g.operand? n 1 = some m ∧ m.kind = .input ∧ m.isRecurrent := by
    have h := r.operand?_map hm 1 (fun m => (m.kind, m.isRecurrent)) fun _ _ => rfl
    have hpair : ∀ x : Option Node, (∃ m, x = some m ∧ m.kind = .input ∧ m.isRecurrent) ↔
        x.map (fun m => (m.kind, m.isRecurrent)) = some (.input, true) := by
      intro x
      cases x <;> simp
    rw [hpair, hpair, h]
  obtain ⟨os, rfl⟩ : ∃ os, n' = { n with operands := os } := ⟨_, hm.same⟩
  exact ⟨fun f => ⟨hlen.trans f.arity, ha.mp f.available, f.float, f.rank,
      fun hr => hfeed.mp (f.feedback hr)⟩,
    fun f => ⟨hlen.symm.trans f.arity, ha.mpr f.available, f.float, f.rank,
      fun hr => hfeed.mpr (f.feedback hr)⟩⟩

theorem nodeFits_iff (r : g.Reordered σ g') (ho : g.Ordered) (ho' : g'.Ordered)
    (hm : Moved g g' σ i n i' n') : g'.NodeFits i' n' ↔ g.NodeFits i n := by
  have ha := r.available_iff ho ho' hm
  unfold NodeFits
  rw [hm.kind]
  cases hk : n.kind with
  | parameter | constant =>
    obtain ⟨os, rfl⟩ : ∃ os, n' = { n with operands := os } := ⟨_, hm.same⟩
    exact ⟨fun f => ⟨f.float, f.rank, f.width⟩, fun f => ⟨f.float, f.rank, f.width⟩⟩
  | input =>
    obtain ⟨os, rfl⟩ : ∃ os, n' = { n with operands := os } := ⟨_, hm.same⟩
    exact ⟨fun f => ⟨f.rank, f.type⟩, fun f => ⟨f.rank, f.type⟩⟩
  | output => exact r.outputFits_iff hm (ha (by simp [Node.takesOperands, hk]))
  | operator name a => exact r.operatorFits_iff hm (ha (by simp [Node.takesOperands, hk]))
  | quantizeMarker => exact markerFits_iff hm (ha (by simp [Node.takesOperands, hk]))

theorem feeds_eq (hm : Moved g g' σ i n i' n') (k : Fin g.size) :
    n'.feeds (σ k) = n.feeds k := by
  have hrole : (n'.isOutput && n'.isRecurrent) = (n.isOutput && n.isRecurrent) :=
    hm.eq (fun m => m.isOutput && m.isRecurrent) fun _ _ => rfl
  have hnames : (n'.operands[1]?.map fun o => o.toNat == (σ k).val) =
      n.operands[1]?.map fun o => o.toNat == k.val :=
    getElem?_renumbered hm.operands (fun ho => names_iff ho k) 1
  have hpoint : ∀ (x : Option UInt64) (k : Nat),
      (x.map UInt64.toNat == some k) = (x.map (fun o => o.toNat == k) == some true) := by
    intro x k
    cases x <;> simp [Bool.beq_eq_decide_eq]
  rw [Node.feeds, Node.feeds, hrole, hpoint, hpoint, hnames]

/-! ### Conditions on the graph -/

theorem reserved_perm (r : g.Reordered σ g') : g'.reserved.Perm g.reserved := by
  apply List.Perm.append_left
  apply r.nodes_flatMap_perm
  intro i n i' n' hm
  exact hm.eq Node.identifiers fun _ _ => rfl

theorem outputNames_perm (r : g.Reordered σ g') :
    ((g'.nodes.filter Node.isOutput).map Node.signatureName).Perm
      ((g.nodes.filter Node.isOutput).map Node.signatureName) :=
  r.filter_map_perm (fun _ _ => rfl) fun hm => hm.eq Node.signatureName fun _ _ => rfl

theorem outputsApart_iff (r : g.Reordered σ g') :
    (∀ n ∈ g'.nodes, n.isOutput → ∀ m ∈ g'.nodes, m.isInput →
      n.signatureName ≠ m.signatureName) ↔
    ∀ n ∈ g.nodes, n.isOutput → ∀ m ∈ g.nodes, m.isInput →
      n.signatureName ≠ m.signatureName := by
  have hinputs : ∀ name : String, (∀ m ∈ g'.nodes, m.isInput → name ≠ m.signatureName) ↔
      ∀ m ∈ g.nodes, m.isInput → name ≠ m.signatureName := by
    intro name
    apply r.forall_mem_iff
    intro i m i' m' hm
    exact iff_of_eq (hm.eq (fun m => m.isInput → name ≠ m.signatureName) fun _ _ => rfl)
  apply r.forall_mem_iff
  intro i n i' n' hm
  rw [hinputs, hm.eq Node.isOutput fun _ _ => rfl, hm.eq Node.signatureName fun _ _ => rfl]

theorem outputsFree_iff (r : g.Reordered σ g') :
    (∀ n ∈ g'.nodes, n.isOutput → n.isRecurrent = false → n.signatureName ∉ g'.reserved) ↔
    ∀ n ∈ g.nodes, n.isOutput → n.isRecurrent = false → n.signatureName ∉ g.reserved := by
  apply r.forall_mem_iff
  intro i n i' n' hm
  rw [r.reserved_perm.mem_iff, hm.eq Node.isOutput fun _ _ => rfl,
    hm.eq Node.isRecurrent fun _ _ => rfl, hm.eq Node.signatureName fun _ _ => rfl]

theorem fedOnce_iff (r : g.Reordered σ g') :
    (∀ (id : Nat) (n : Node), g'.nodes[id]? = some n → n.isInput → n.isRecurrent →
      g'.nodes.countP (·.feeds id) = 1) ↔
    ∀ (id : Nat) (n : Node), g.nodes[id]? = some n → n.isInput → n.isRecurrent →
      g.nodes.countP (·.feeds id) = 1 := by
  apply r.forall_nodes_iff (fun id n => n.isInput → n.isRecurrent → g.nodes.countP (·.feeds id) = 1)
    (fun id n => n.isInput → n.isRecurrent → g'.nodes.countP (·.feeds id) = 1)
  intro i n i' n' hm
  have hcount : g'.nodes.countP (·.feeds i') = g.nodes.countP (·.feeds i) := by
    apply r.countP_eq
    intro j m j' m' hmoved
    rw [hm.position]
    exact feeds_eq hmoved ⟨i, hm.lt⟩
  rw [hcount, hm.eq Node.isInput fun _ _ => rfl, hm.eq Node.isRecurrent fun _ _ => rfl]

theorem acceptable_iff (r : g.Reordered σ g') (ho : g.Ordered) (ho' : g'.Ordered) :
    g'.Acceptable ↔ g.Acceptable := by
  have hnodes := r.forall_nodes_iff g.NodeFits g'.NodeFits fun hm => r.nodeFits_iff ho ho' hm
  have hids := r.reserved_perm.nodup_iff
  have hnames := r.outputNames_perm.nodup_iff
  refine ⟨?_, ?_⟩
  · intro h
    exact ⟨hnodes.mp h.nodes, hids.mp h.identifiers, hnames.mp h.outputNames,
      r.outputsApart_iff.mp h.outputsApart, r.outputsFree_iff.mp h.outputsFree,
      r.fedOnce_iff.mp h.fedOnce⟩
  · intro h
    exact ⟨hnodes.mpr h.nodes, hids.mpr h.identifiers, hnames.mpr h.outputNames,
      r.outputsApart_iff.mpr h.outputsApart, r.outputsFree_iff.mpr h.outputsFree,
      r.fedOnce_iff.mpr h.fedOnce⟩

/-! ### Plans -/

variable {naming : Naming}

theorem values_perm (r : g.Reordered σ g') :
    (g'.planOf naming).values.Perm (g.planOf naming).values :=
  r.filter_map_perm (fun _ _ => rfl) fun hm => hm.eq Node.leafValue fun _ _ => rfl

theorem body_perm (r : g.Reordered σ g') :
    (g'.planOf naming).body.Perm (g.planOf naming).body :=
  r.flatMap_perm g.statements g'.statements r.statements_eq

theorem inputs_eq (r : g.Reordered σ g') (h : g.Acceptable) :
    (g'.planOf naming).inputs = (g.planOf naming).inputs := by
  have hp : ((g'.nodes.filter Node.isInput).map Node.inputBinding).Perm
      ((g.nodes.filter Node.isInput).map Node.inputBinding) :=
    r.filter_map_perm (fun _ _ => rfl) fun hm => hm.eq Node.inputBinding fun _ _ => rfl
  have hd : (((g.nodes.filter Node.isInput).map Node.inputBinding).map InputBinding.name).Nodup := by
    rw [List.map_map]
    exact inputSymbols_nodup h
  exact (Draft.signatureOrder_eq_of_perm hp.symm hd).symm

theorem outputs_eq (r : g.Reordered σ g') (h : g.Acceptable) :
    (g'.planOf naming).outputs = (g.planOf naming).outputs := by
  have hp : ((g'.nodes.filter Node.isOutput).map g'.outputBinding).Perm
      ((g.nodes.filter Node.isOutput).map g.outputBinding) :=
    r.filter_map_perm (fun _ _ => rfl) r.outputBinding_eq
  have hd : (((g.nodes.filter Node.isOutput).map g.outputBinding).map OutputBinding.name).Nodup := by
    rw [List.map_map]
    exact h.outputNames
  exact (Draft.signatureOrder_eq_of_perm hp.symm hd).symm

end Reordered

theorem lower_reordered (g g' : Graph) (σ : Equiv.Perm (Fin g.size)) (naming : Naming)
    (r : g.Reordered σ g') (ho : g.Ordered) (ho' : g'.Ordered) :
    ((∃ plan, g.lower naming = .ok plan) ↔ ∃ plan, g'.lower naming = .ok plan) ∧
    ∀ plan plan', g.lower naming = .ok plan → g'.lower naming = .ok plan' →
      plan'.inputs = plan.inputs ∧ plan'.outputs = plan.outputs ∧
      plan'.values.Perm plan.values ∧ plan'.body.Perm plan.body := by
  have hacc := r.acceptable_iff ho ho'
  refine ⟨?_, ?_⟩
  · refine ⟨?_, ?_⟩
    · rintro ⟨plan, h⟩
      obtain ⟨h, -⟩ := lower_eq_ok_iff.mp h
      exact ⟨_, lower_eq_ok_iff.mpr ⟨hacc.mpr h, rfl⟩⟩
    · rintro ⟨plan, h⟩
      obtain ⟨h, -⟩ := lower_eq_ok_iff.mp h
      exact ⟨_, lower_eq_ok_iff.mpr ⟨hacc.mp h, rfl⟩⟩
  · intro plan plan' hplan hplan'
    obtain ⟨h, rfl⟩ := lower_eq_ok_iff.mp hplan
    obtain ⟨-, rfl⟩ := lower_eq_ok_iff.mp hplan'
    exact ⟨r.inputs_eq h, r.outputs_eq h, r.values_perm, r.body_perm⟩

/-! ### Permuting a graph -/

def renumber (g : Graph) (σ : Equiv.Perm (Fin g.size)) (o : UInt64) : UInt64 :=
  if h : o.toNat < g.size then .ofNat (σ ⟨o.toNat, h⟩) else o

/-- The graph that lists the nodes of `g` in the order of `σ`. -/
def permute (g : Graph) (σ : Equiv.Perm (Fin g.size)) : Graph where
  nodes := List.ofFn fun j =>
    let n := g.nodes.get (σ.symm j)
    { n with operands := n.operands.map (g.renumber σ) }

theorem renumbered_renumber (hsize : g.size ≤ UInt64.size) (o : UInt64) :
    Renumbered σ o (g.renumber σ o) := by
  unfold Renumbered renumber
  split
  · rename_i h
    have hlt : (σ ⟨o.toNat, h⟩).val < UInt64.size := Nat.lt_of_lt_of_le (σ ⟨o.toNat, h⟩).isLt hsize
    exact UInt64.toNat_ofNat_of_lt hlt
  · rfl

/-- When ids can name every position, every permutation gives a graph. -/
theorem reordered_permute (hsize : g.size ≤ UInt64.size) : g.Reordered σ (g.permute σ) where
  size := List.length_ofFn
  node i n hn := by
    refine ⟨n.operands.map (g.renumber σ), ?_, ?_⟩
    · have hget : g.nodes.get i = n := (List.getElem?_eq_some_iff.mp hn).2
      rw [permute, List.getElem?_ofFn, dif_pos (σ i).isLt]
      simp only [Fin.eta, Equiv.symm_apply_apply, hget]
    · rw [List.forall₂_map_right_iff]
      exact List.forall₂_same.mpr fun o _ => renumbered_renumber hsize o

/-- The matrix of `runningSum` first, and the immediate input in its place. -/
def runningSumOrder : Equiv.Perm (Fin runningSum.size) :=
  Equiv.swap ⟨0, by decide⟩ ⟨2, by decide⟩

theorem runningSum_reordered :
    runningSum.Ordered ∧ (runningSum.permute runningSumOrder).Ordered ∧
    ∃ plan, (runningSum.permute runningSumOrder).lower {} = .ok plan ∧
      plan.inputs = (runningSum.planOf {}).inputs ∧
      plan.body.Perm (runningSum.planOf {}).body := by
  have ho : runningSum.Ordered := by decide +kernel
  have ho' : (runningSum.permute runningSumOrder).Ordered := by decide +kernel
  have hsize : runningSum.size ≤ UInt64.size := by decide
  have h := lower_reordered runningSum _ runningSumOrder {} (reordered_permute hsize) ho ho'
  obtain ⟨plan, hplan⟩ := h.1.mp ⟨_, runningSum_lower⟩
  obtain ⟨hinputs, -, -, hbody⟩ := h.2 _ plan runningSum_lower hplan
  exact ⟨ho, ho', plan, hplan, hinputs, hbody⟩

end Graph

end EvaluatorGen
