import EvaluatorGen.Header.Basic
import EvaluatorGen.Proofs.Identifiers
import EvaluatorGen.Proofs.Weights.Store

/-!
The storage of the leaves.

A leaf is known to four parts of a plan: it is a value with a member that the class declares,
a view that the pipeline opens over that member, for a quantized leaf a stage that reads its
scale step, and an entry of the weight store. Each part makes up names, types and sizes for
itself; here they are shown to agree.

1. `body_views` and `body_scalars`: the views of the pipeline, and the members that its scalar
   stages read, are those of the leaves, in order.
2. `view_fits`: the view of a leaf fits its value and has as many elements as its shape.
3. `leaf_storage_agrees`: so the views, the values and the leaves stand in the same order, and a
   store that suits the graph has for each leaf as many values as its view addresses.
-/
namespace EvaluatorGen

/-! ### Views of a pipeline -/

/-- A typed view over a member of the class. -/
structure View where
  element : ScalarType
  storage : String
  dims : List UInt64
  deriving DecidableEq, Repr

/-- The number of elements that a view addresses. -/
def View.size (v : View) : Nat := (v.dims.map UInt64.toNat).prod

/-- The declaration of the member that a view is over. -/
def View.declaration (v : View) : String :=
  "std::vector<" ++ Header.typeName v.element ++ "> " ++ v.storage ++ ";"

namespace Stmt

/-- The view that a statement opens. -/
def view? : Stmt → Option View
  | .bufferView _ element storage dims _ => some ⟨element, storage, dims⟩
  | _ => none

/-- The member whose value a statement makes a stage of. -/
def scalar? : Stmt → Option String
  | .func _ (.scalar memberName) => some memberName
  | _ => none

end Stmt

def LeafValue.isQuantized (v : LeafValue) : Bool :=
  match v.storage with
  | .plain => false
  | .quantized _ _ => true

/-- The declaration of the member for the scale step of a quantized leaf. -/
def LeafValue.stepDeclaration (v : LeafValue) : String :=
  Header.typeName v.source ++ " " ++ Identifier.step v.symbol ++ ";"

namespace Plan

def views (p : Plan) : List View := p.body.filterMap Stmt.view?

/-- The members that the scalar stages of the pipeline read. -/
def scalars (p : Plan) : List String := p.body.filterMap Stmt.scalar?

end Plan

/-- A view fits the value of a leaf: it is over the member that the class declares for the
    value, with the type that it is declared with, and has as many elements as the leaf. -/
structure View.Fits (view : View) (p : Plan) (value : LeafValue) (n : Node) : Prop where
  uid : value.uid = n.uid
  storage : view.storage = Identifier.storage value.symbol
  element : view.element = value.storageType
  declared : view.declaration ∈ Header.privateMembers p
  size : view.size = n.extent

namespace Node

/-- The view that the pipeline opens for a leaf. -/
def view (n : Node) : View := ⟨n.valueType, Identifier.storage n.symbol, n.sizes.reverse⟩

theorem leafValue_isQuantized (n : Node) : n.leafValue.isQuantized = n.isQuantized := by
  unfold LeafValue.isQuantized leafValue isQuantized
  cases n.quantization <;> rfl

theorem leafValue_storageType (n : Node) : n.leafValue.storageType = n.valueType := by
  unfold LeafValue.storageType leafValue valueType
  cases n.quantization <;> rfl

/-- A scalar has one element, and a buffer of one; the order of the extents does not count. -/
theorem view_size (n : Node) : n.view.size = n.extent := by
  unfold View.size view extent sizes
  cases h : n.shape with
  | nil => simp
  | cons a shape => simp [List.prod_reverse, Nat.mul_comm]

theorem declaration_mem_storageMembers (n : Node) :
    n.view.declaration ∈ Header.storageMembers n.leafValue := by
  rw [Header.storageMembers, leafValue_storageType]
  exact List.mem_cons_self

theorem stepDeclaration_mem_storageMembers {n : Node} (h : n.isQuantized) :
    n.leafValue.stepDeclaration ∈ Header.storageMembers n.leafValue := by
  have hq := n.leafValue_isQuantized
  rw [h] at hq
  obtain ⟨type, bits, hs⟩ : ∃ type bits, n.leafValue.storage = .quantized type bits := by
    unfold LeafValue.isQuantized at hq
    split at hq
    · cases hq
    · exact ⟨_, _, ‹_›⟩
  rw [Header.storageMembers, hs]
  exact List.mem_cons_of_mem _ List.mem_cons_self

end Node

namespace Graph

variable {g : Graph} {naming : Naming}

/-- What is looked for only in leaves: the statements of any other node are one call, and at
    most a directive. -/
theorem statements_filterMap {α : Type} {f : Stmt → Option α}
    (hexpr : ∀ name e, f (.func name (.expr e)) = none)
    (hgroup : ∀ name e, f (.funcGroup name e) = none)
    (hroot : ∀ name, f (.computeRoot name) = none) (id : Nat) (n : Node) :
    (g.statements id n).filterMap f = if n.isLeaf then n.leafStatements.filterMap f else [] := by
  cases hk : n.kind with
  | parameter | constant => simp [statements, Node.isLeaf, NodeKind.isLeaf, hk]
  | input | output => simp [statements, Node.isLeaf, NodeKind.isLeaf, hk]
  | operator name a =>
    simp only [statements, Node.isLeaf, NodeKind.isLeaf, hk]
    cases n.callee? with
    | none => rfl
    | some c => cases n.isArithmetic && g.isShared id <;> simp [hexpr, hroot]
  | quantizeMarker =>
    simp only [statements, Node.isLeaf, NodeKind.isLeaf, hk]
    cases n.callee? <;> simp [hgroup]

theorem body_filterMap {α : Type} {f : Stmt → Option α}
    (hexpr : ∀ name e, f (.func name (.expr e)) = none)
    (hgroup : ∀ name e, f (.funcGroup name e) = none)
    (hroot : ∀ name, f (.computeRoot name) = none) :
    (g.planOf naming).body.filterMap f =
      g.leaves.flatMap fun n => n.leafStatements.filterMap f := by
  calc
    (g.planOf naming).body.filterMap f
    _ = g.nodes.zipIdx.flatMap fun p => (g.statements p.2 p.1).filterMap f := by
      rw [planOf, List.filterMap_flatMap]
    _ = g.nodes.zipIdx.flatMap fun p =>
        if p.1.isLeaf then p.1.leafStatements.filterMap f else [] := by
      simp only [statements_filterMap hexpr hgroup hroot]
    _ = g.nodes.flatMap fun n => if n.isLeaf then n.leafStatements.filterMap f else [] := by
      exact flatMap_zipIdx_nodes
        (fun n => if n.isLeaf then n.leafStatements.filterMap f else []) _
    _ = g.leaves.flatMap fun n => n.leafStatements.filterMap f := by
      rw [leaves, flatMap_filter_nodes]

theorem body_views : (g.planOf naming).views = g.leaves.map Node.view := by
  rw [Plan.views, body_filterMap (fun _ _ => rfl) (fun _ _ => rfl) (fun _ => rfl),
    List.map_eq_flatMap]
  apply List.flatMap_congr
  intro n _
  unfold Node.leafStatements
  cases n.isQuantized <;> rfl

theorem body_scalars :
    (g.planOf naming).scalars =
      (g.leaves.filter Node.isQuantized).map fun n => Identifier.step n.symbol := by
  rw [Plan.scalars, body_filterMap (fun _ _ => rfl) (fun _ _ => rfl) (fun _ => rfl),
    List.map_eq_flatMap, flatMap_filter_nodes]
  apply List.flatMap_congr
  intro n _
  unfold Node.leafStatements
  cases n.isQuantized <;> rfl

/-! ### Members of the class -/

theorem mem_privateMembers {n : Node} (hn : n ∈ g.leaves) {member : String}
    (h : member ∈ Header.storageMembers n.leafValue) :
    member ∈ Header.privateMembers (g.planOf naming) := by
  have hv : n.leafValue ∈ (g.planOf naming).values := List.mem_map_of_mem hn
  have hm := List.mem_flatMap.mpr ⟨n.leafValue, hv, h⟩
  exact List.mem_append_left _ (List.mem_append_left _ hm)

theorem view_fits {n : Node} (hn : n ∈ g.leaves) :
    n.view.Fits (g.planOf naming) n.leafValue n where
  uid := rfl
  storage := rfl
  element := n.leafValue_storageType.symm
  declared := mem_privateMembers hn n.declaration_mem_storageMembers
  size := n.view_size

theorem leaf_storage_agrees (g : Graph) (naming : Naming) (plan : Plan)
    (h : g.lower naming = .ok plan) :
    (plan.views.length = plan.values.length ∧ plan.values.length = g.leaves.length ∧
      ∀ (i : Nat) (view : View) (value : LeafValue) (n : Node), plan.views[i]? = some view →
        plan.values[i]? = some value → g.leaves[i]? = some n → view.Fits plan value n) ∧
    (plan.scalars = (plan.values.filter LeafValue.isQuantized).map
        fun v => Identifier.step v.symbol) ∧
    (∀ v ∈ plan.values, v.isQuantized → v.stepDeclaration ∈ Header.privateMembers plan) ∧
    ∀ w : Weights, w.validate g = .ok () →
      ∀ (i : Nat) (view : View) (n : Node), plan.views[i]? = some view →
        g.leaves[i]? = some n → ∃ values, w.get? n.uid = some values ∧ values.length = view.size := by
  obtain ⟨-, rfl⟩ := lower_eq_ok_iff.mp h
  have hvalues : (g.planOf naming).values = g.leaves.map Node.leafValue := rfl
  rw [body_views, body_scalars, hvalues]
  refine ⟨⟨by simp, by simp, ?_⟩, ?_, ?_, ?_⟩
  · intro i view value n hview hvalue hn
    rw [List.getElem?_map, hn] at hview hvalue
    cases hview
    cases hvalue
    exact view_fits (List.mem_of_getElem? hn)
  · rw [List.filter_map, List.map_map]
    have hq : LeafValue.isQuantized ∘ Node.leafValue = Node.isQuantized :=
      funext Node.leafValue_isQuantized
    rw [hq]
    rfl
  · intro v hv hq
    obtain ⟨n, hn, rfl⟩ := List.mem_map.mp hv
    rw [n.leafValue_isQuantized] at hq
    exact mem_privateMembers hn (n.stepDeclaration_mem_storageMembers hq)
  · intro w hw i view n hview hn
    rw [List.getElem?_map, hn] at hview
    cases hview
    obtain ⟨values, hget, hlen⟩ := Weights.validate_ok_iff.mp hw n (List.mem_of_getElem? hn)
    exact ⟨values, hget, by rw [Weights.checkLength_ok hlen, n.view_size]⟩

theorem runningSum_leaf_storage :
    runningSum.lower {} = .ok (runningSum.planOf {}) ∧
    (Weights.empty.insert "W" (List.replicate 4 default)).validate runningSum = .ok () ∧
    (runningSum.planOf {}).views[0]? = some ⟨.int8, "m_W", [2, 2]⟩ ∧
    ∃ values, (Weights.empty.insert "W" (List.replicate 4 default)).get? "W" = some values ∧
      values.length = View.size ⟨.int8, "m_W", [2, 2]⟩ := by
  have hvalid : (Weights.empty.insert "W" (List.replicate 4 default)).validate runningSum =
      .ok () := by
    decide +kernel
  have hview : (runningSum.planOf {}).views[0]? = some ⟨.int8, "m_W", [2, 2]⟩ := by decide +kernel
  have h := leaf_storage_agrees runningSum {} _ runningSum_lower
  exact ⟨runningSum_lower, hvalid, hview, h.2.2.2 _ hvalid 0 _ _ hview rfl⟩

end Graph

end EvaluatorGen
