import EvaluatorGen.Proofs.Acceptance
import EvaluatorGen.Proofs.Consumers

/-!
Where lowering asks what a node is declared with.

Every node declares an element type and a shape, but no check goes over all of them. The rules ask
for a declaration where they need it.

1. `Node.readsType`, `Graph.readsShape`: which declarations a rule asks for. An operator is never
   asked for its own, but for the type of a sigmoid, and for the shape if an operator that needs
   lengths names it.
2. `Graph.retype`: the graph with other element types and shapes. `planOf_retype` and
   `acceptable_retype`: where these agree with what is read, nothing changes.
3. `declarations_read`: so what is read is supported in every graph that can be lowered, and what is
   not read may be anything. `not_allSupported`: its type may be unsupported, and so may its shape.
-/
namespace EvaluatorGen

namespace Node

/-! ### What is read -/

/-- Whether the node's declared element type is asked for. The values of a quantized input or
    sigmoid have the type of their width. -/
def readsType (n : Node) : Bool :=
  match n.kind with
  | .parameter | .constant | .output | .quantizeMarker => true
  | .input => !n.isQuantized
  | .operator name _ => name ∈ ["Sigmoid", "StableSigmoid"] && !n.isQuantized

/-- The operators that need the shapes of their operands. -/
def measures (n : Node) : Bool :=
  match n.kind with
  | .operator name _ => name ∈ ["Times", "Slice", "Splice"]
  | _ => false

/-- The node with another element type and shape. -/
def retype (n : Node) (type : ElementType) (shape : List UInt64) : Node :=
  { n with elementType := type, shape }

variable {n : Node} {type : ElementType} {shape : List UInt64}

theorem valueType_retype (h : n.isQuantized = false → type = n.elementType) :
    (n.retype type shape).valueType = n.valueType := by
  unfold valueType
  have hq : (n.retype type shape).quantization = n.quantization := rfl
  rw [hq]
  cases hq : n.quantization with
  | none =>
    rw [h (by simp [isQuantized, hq])]
    rfl
  | some q => rfl

theorem HasValueType.retype (hv : n.HasValueType)
    (h : n.isQuantized = false → type = n.elementType) :
    (n.retype type shape).HasValueType := by
  refine ⟨hv.1, fun hq => ?_⟩
  have hq' : n.quantization = none := hq
  rw [h (by simp [isQuantized, hq'])]
  exact hv.2 hq'

theorem callee?_retype (h : n.readsType → type = n.elementType) :
    (n.retype type shape).callee? = n.callee? := by
  have hkind : (n.retype type shape).kind = n.kind := rfl
  unfold callee?
  rw [hkind]
  split <;> rename_i hk <;> try rfl
  · rw [valueType_retype fun hq => h (by simp [readsType, hk, hq])]
  · rw [valueType_retype fun hq => h (by simp [readsType, hk, hq])]
  · rw [h (by simp [readsType, hk])]
    rfl

end Node

namespace Graph

/-- Whether the declared shape of the node at position `id` is asked for. That of an operator is
    not, unless an operator that needs lengths names it. -/
def readsShape (g : Graph) (id : Nat) (n : Node) : Bool :=
  match n.kind with
  | .operator _ _ => g.nodes.any fun m => m.measures && m.consumes id
  | _ => true

/-- The graph with other element types and shapes, by position. -/
def retype (g : Graph) (types : Nat → ElementType) (shapes : Nat → List UInt64) : Graph where
  nodes := g.nodes.zipIdx.map fun p => p.1.retype (types p.2) (shapes p.2)

/-- The new declarations are the old ones wherever these are asked for. -/
structure AgreesOnReads (g : Graph) (types : Nat → ElementType) (shapes : Nat → List UInt64) :
    Prop where
  type : ∀ (id : Nat) (n : Node), g.nodes[id]? = some n → n.readsType → types id = n.elementType
  shape : ∀ (id : Nat) (n : Node), g.nodes[id]? = some n → g.readsShape id n → shapes id = n.shape

variable {g : Graph} {naming : Naming} {types : Nat → ElementType} {shapes : Nat → List UInt64}
  {n : Node} {type : ElementType} {shape : List UInt64}

/-! ### The nodes of the retyped graph -/

theorem retype_getElem? (id : Nat) :
    (g.retype types shapes).nodes[id]? =
      g.nodes[id]?.map fun n => n.retype (types id) (shapes id) := by
  simp only [retype, List.getElem?_map, List.getElem?_zipIdx, Option.map_map, Nat.zero_add]
  rfl

theorem retype_nodes_eq_some {id : Nat} {m : Node} :
    (g.retype types shapes).nodes[id]? = some m ↔
      ∃ n, g.nodes[id]? = some n ∧ n.retype (types id) (shapes id) = m := by
  rw [retype_getElem?, Option.map_eq_some_iff]

theorem mem_retype_nodes {m : Node} :
    m ∈ (g.retype types shapes).nodes ↔
      ∃ (id : Nat) (n : Node), g.nodes[id]? = some n ∧ n.retype (types id) (shapes id) = m := by
  rw [List.mem_iff_getElem?]
  exact exists_congr fun id => retype_nodes_eq_some

theorem zipIdx_retype :
    (g.retype types shapes).nodes.zipIdx =
      g.nodes.zipIdx.map fun p => (p.1.retype (types p.2) (shapes p.2), p.2) := by
  apply List.ext_getElem?
  intro i
  simp only [List.getElem?_zipIdx, retype_getElem?, List.getElem?_map, Option.map_map, Nat.zero_add]
  rfl

/-- A list over the nodes of a kind is the same if the entry of each of them is. -/
theorem filter_map_retype {α : Type} {p : Node → Bool} {f f' : Node → α}
    (hp : ∀ (n : Node) type shape, p (n.retype type shape) = p n)
    (hf : ∀ id n, g.nodes[id]? = some n → p n →
      f' (n.retype (types id) (shapes id)) = f n) :
    ((g.retype types shapes).nodes.filter p).map f' = (g.nodes.filter p).map f := by
  have hnodes : g.nodes = g.nodes.zipIdx.map Prod.fst := (List.zipIdx_map_fst 0 _).symm
  conv_rhs => rw [hnodes]
  rw [retype, List.filter_map, List.filter_map, List.map_map, List.map_map]
  have hfilter : (p ∘ fun q : Node × Nat => q.1.retype (types q.2) (shapes q.2)) =
      p ∘ Prod.fst := by
    funext q
    exact hp _ _ _
  rw [hfilter]
  apply List.map_congr_left
  rintro ⟨n, id⟩ hq
  obtain ⟨hq, hpn⟩ := List.mem_filter.mp hq
  exact hf id n (List.mk_mem_zipIdx_iff_getElem?.mp hq) hpn

theorem map_retype {α : Type} {f : Node → α}
    (hf : ∀ (n : Node) type shape, f (n.retype type shape) = f n) :
    (g.retype types shapes).nodes.map f = g.nodes.map f := by
  have hall := @filter_map_retype g types shapes α (fun _ => true) f f (fun _ _ _ => rfl)
    fun _ n _ _ => hf n _ _
  simpa using hall

theorem countP_retype {p : Node → Bool}
    (hp : ∀ (n : Node) type shape, p (n.retype type shape) = p n) :
    (g.retype types shapes).nodes.countP p = g.nodes.countP p := by
  have hmap := congrArg (List.countP id) (@map_retype g types shapes Bool p hp)
  rwa [List.countP_map, List.countP_map] at hmap

theorem consumerCounts_retype : (g.retype types shapes).consumerCounts = g.consumerCounts :=
  consumerCounts_congr (map_retype fun _ _ _ => rfl)

/-! ### Operands -/

theorem get?_retype (o : UInt64) :
    (g.retype types shapes).get? o =
      (g.get? o).map fun m => m.retype (types o.toNat) (shapes o.toNat) :=
  retype_getElem? _

theorem symbolAt_retype (o : UInt64) :
    (g.retype types shapes).symbolAt o = g.symbolAt o := by
  rw [symbolAt, get?_retype, Option.map_map]
  rfl

theorem available_retype {id : Nat} {o : UInt64} (h : g.Available id o) :
    (g.retype types shapes).Available id o := by
  obtain ⟨hlt, m, hm, hk⟩ := h
  exact ⟨hlt, m.retype (types o.toNat) (shapes o.toNat), by rw [get?_retype, hm, Option.map_some],
    hk⟩

theorem operand?_retype (i : Nat) :
    (g.retype types shapes).operand? (n.retype type shape) i =
      (n.operands[i]?).bind fun o =>
        (g.get? o).map fun m => m.retype (types o.toNat) (shapes o.toNat) := by
  simp only [operand?, ← get?_retype]
  rfl

theorem operand_symbol_retype (i : Nat) :
    ((g.retype types shapes).operand? (n.retype type shape) i).map Node.symbol =
      (g.operand? n i).map Node.symbol := by
  rw [operand?_retype, operand?, Option.map_bind, Option.map_bind]
  congr 1
  funext o
  simp only [Function.comp_apply, Option.map_map]
  rfl

/-- An operator that measures its operands finds the shapes that were there. -/
theorem operand_shape_retype (h : g.AgreesOnReads types shapes) (hn : n ∈ g.nodes)
    (hm : n.measures) (i : Nat) :
    ((g.retype types shapes).operand? (n.retype type shape) i).map Node.shape =
      (g.operand? n i).map Node.shape := by
  rw [operand?_retype, operand?]
  cases ho : n.operands[i]? with
  | none => rfl
  | some o =>
    cases hg : g.get? o with
    | none => simp [hg]
    | some m =>
      have hread : g.readsShape o.toNat m := by
        unfold readsShape
        split
        · refine List.any_eq_true.mpr ⟨n, hn, ?_⟩
          rw [hm, Bool.true_and, Node.consumes_iff]
          exact ⟨o, List.mem_of_getElem? ho, rfl⟩
        · rfl
      have hshape : shapes o.toNat = m.shape := h.shape _ m hg hread
      simp [hg, Node.retype, hshape]

theorem operandShape_retype (h : g.AgreesOnReads types shapes) (hn : n ∈ g.nodes)
    (hm : n.measures) (i : Nat) :
    (g.retype types shapes).operandShape (n.retype type shape) i = g.operandShape n i := by
  rw [operandShape, operand_shape_retype h hn hm, operandShape]

theorem operandRank?_retype (h : g.AgreesOnReads types shapes) (hn : n ∈ g.nodes)
    (hm : n.measures) (i : Nat) :
    (g.retype types shapes).operandRank? (n.retype type shape) i = g.operandRank? n i := by
  have hrank := congrArg (Option.map List.length)
    (@operand_shape_retype g types shapes n type shape h hn hm i)
  rw [Option.map_map, Option.map_map] at hrank
  exact hrank

/-! ### One node -/

theorem outputFits_retype {id : Nat} (hfit : g.OutputFits id n)
    (hsame : n.retype type shape = n) : (g.retype types shapes).OutputFits id n where
  arity := hfit.arity
  available o ho := available_retype (hfit.available o ho)
  float := hfit.float
  rank := hfit.rank
  feedback hr := by
    obtain ⟨m, hm, hk, hrec⟩ := hfit.feedback hr
    obtain ⟨o, ho, hget⟩ := Option.bind_eq_some_iff.mp hm
    refine ⟨m.retype (types o.toNat) (shapes o.toNat), ?_, hk, hrec⟩
    rw [← hsame, operand?_retype, ho, Option.bind_some, hget, Option.map_some]

section OneNode

variable (h : g.AgreesOnReads types shapes) {id : Nat} (hn : g.nodes[id]? = some n)

include h hn

/-- A node whose declarations are both asked for stays the same. -/
theorem retype_of_reads (ht : n.readsType) (hs : g.readsShape id n) :
    n.retype (types id) (shapes id) = n := by
  rw [h.type id n hn ht, h.shape id n hn hs]
  rfl

theorem literals_retype :
    (g.retype types shapes).literals (n.retype (types id) (shapes id)) = g.literals n := by
  have hmem := List.mem_of_getElem? hn
  have hkind : (n.retype (types id) (shapes id)).kind = n.kind := rfl
  unfold literals
  rw [hkind]
  split <;> rename_i hk
  · have hm : n.measures := by simp [Node.measures, hk]
    rw [operandShape_retype h hmem hm]
  · rfl
  · have hm : n.measures := by simp [Node.measures, hk]
    rw [operandShape_retype h hmem hm, operandShape_retype h hmem hm]
  · rw [h.shape id n hn (by simp [readsShape, hk])]
    rfl
  · rfl

theorem callExpr_retype (c : Callee) :
    (g.retype types shapes).callExpr (n.retype (types id) (shapes id)) c = g.callExpr n c := by
  rw [callExpr, callExpr, literals_retype h hn]
  simp only [symbolAt_retype]
  rfl

theorem statements_retype :
    (g.retype types shapes).statements id (n.retype (types id) (shapes id)) =
      g.statements id n := by
  have htype := h.type id n hn
  have hcallee : (n.retype (types id) (shapes id)).callee? = n.callee? := Node.callee?_retype htype
  have hshared : (g.retype types shapes).isShared id = g.isShared id := by
    rw [isShared, consumerCounts_retype, isShared]
  have hkind : (n.retype (types id) (shapes id)).kind = n.kind := rfl
  unfold statements
  rw [hcallee, hkind]
  split <;> rename_i hk
  · rw [retype_of_reads h hn (by simp [Node.readsType, hk]) (by simp [readsShape, hk])]
  · rw [retype_of_reads h hn (by simp [Node.readsType, hk]) (by simp [readsShape, hk])]
  · rw [callExpr_retype h hn, hshared]
    rfl
  · rw [callExpr_retype h hn]
    rfl
  · rfl

theorem inputBinding_retype (hi : n.isInput) :
    (n.retype (types id) (shapes id)).inputBinding = n.inputBinding := by
  have hk := Node.isInput_iff.mp hi
  have hvalue : (n.retype (types id) (shapes id)).valueType = n.valueType :=
    Node.valueType_retype fun hq => h.type id n hn (by simp [Node.readsType, hk, hq])
  have hshape : shapes id = n.shape := h.shape id n hn (by simp [readsShape, hk])
  unfold Node.inputBinding
  rw [hvalue, hshape]
  rfl

theorem outputBinding_retype (ho : n.isOutput) :
    (g.retype types shapes).outputBinding (n.retype (types id) (shapes id)) =
      g.outputBinding n := by
  have hk := Node.isOutput_iff.mp ho
  have htype : types id = n.elementType := h.type id n hn (by simp [Node.readsType, hk])
  unfold outputBinding
  rw [operand_symbol_retype, operand_symbol_retype, htype]
  rfl

theorem operatorFits_retype {name : String} {a : Attributes} (hk : n.kind = .operator name a)
    (hfit : g.OperatorFits id n name a) :
    (g.retype types shapes).OperatorFits id (n.retype (types id) (shapes id)) name a := by
  have hmem := List.mem_of_getElem? hn
  have hrank (hm : name ∈ ["Times", "Slice", "Splice"]) (i : Nat) :
      (g.retype types shapes).operandRank? (n.retype (types id) (shapes id)) i =
        g.operandRank? n i :=
    operandRank?_retype h hmem (by simpa [Node.measures, hk] using hm) i
  constructor
  case arity => exact hfit.arity
  case available => exact fun o ho => available_retype (hfit.available o ho)
  case bounds => exact hfit.bounds
  case slice =>
    intro hname
    rw [hrank (by simp [hname])]
    exact hfit.slice hname
  case times =>
    intro hname
    rw [hrank (by simp [hname]), hrank (by simp [hname])]
    exact hfit.times hname
  case splice =>
    intro hname
    rw [hrank (by simp [hname]), hrank (by simp [hname])]
    exact hfit.splice hname
  case sigmoid =>
    intro hname
    refine (hfit.sigmoid hname).retype fun hq => h.type id n hn ?_
    simp [Node.readsType, hk, hname, hq]

theorem nodeFits_retype (hfit : g.NodeFits id n) :
    (g.retype types shapes).NodeFits id (n.retype (types id) (shapes id)) := by
  have hkind : (n.retype (types id) (shapes id)).kind = n.kind := rfl
  have htype := h.type id n hn
  have hshape := h.shape id n hn
  unfold NodeFits at hfit ⊢
  rw [hkind]
  -- Leaves, outputs and markers stay as they are; of the others, only what is asked for does.
  cases hk : n.kind with
  | parameter | constant =>
    rw [hk] at hfit
    rw [retype_of_reads h hn (by simp [Node.readsType, hk]) (by simp [readsShape, hk])]
    exact hfit
  | input =>
    rw [hk] at hfit
    refine ⟨?_, hfit.type.retype fun hq => htype (by simp [Node.readsType, hk, hq])⟩
    rw [hshape (by simp [readsShape, hk])]
    exact hfit.rank
  | output =>
    rw [hk] at hfit
    have hsame := retype_of_reads h hn (by simp [Node.readsType, hk]) (by simp [readsShape, hk])
    rw [hsame]
    exact outputFits_retype hfit hsame
  | operator name a =>
    rw [hk] at hfit
    exact operatorFits_retype h hn hk hfit
  | quantizeMarker =>
    rw [hk] at hfit
    rw [retype_of_reads h hn (by simp [Node.readsType, hk]) (by simp [readsShape, hk])]
    exact ⟨hfit.arity, fun o ho => available_retype (hfit.available o ho), hfit.quantized,
      hfit.width, hfit.float, hfit.rank⟩

end OneNode

/-! ### All nodes -/

theorem planOf_retype (h : g.AgreesOnReads types shapes) :
    (g.retype types shapes).planOf naming = g.planOf naming := by
  have hvalues :
      (g.retype types shapes).leaves.map Node.leafValue = g.leaves.map Node.leafValue := by
    refine filter_map_retype (fun _ _ _ => rfl) fun id n hn hl => ?_
    have hk := Node.isLeaf_iff.mp hl
    rw [retype_of_reads h hn] <;> rcases hk with hk | hk <;> simp [Node.readsType, readsShape, hk]
  have hinputs : ((g.retype types shapes).nodes.filter Node.isInput).map Node.inputBinding =
      (g.nodes.filter Node.isInput).map Node.inputBinding :=
    filter_map_retype (fun _ _ _ => rfl) fun _ _ hn hi => inputBinding_retype h hn hi
  have houtputs : ((g.retype types shapes).nodes.filter Node.isOutput).map
        (g.retype types shapes).outputBinding =
      (g.nodes.filter Node.isOutput).map g.outputBinding :=
    filter_map_retype (fun _ _ _ => rfl) fun _ _ hn ho => outputBinding_retype h hn ho
  have hbody : ((g.retype types shapes).nodes.zipIdx.flatMap
      fun p => (g.retype types shapes).statements p.2 p.1) =
      g.nodes.zipIdx.flatMap fun p => g.statements p.2 p.1 := by
    rw [zipIdx_retype, List.flatMap_map]
    refine List.flatMap_congr fun p hp => ?_
    exact statements_retype h (List.mk_mem_zipIdx_iff_getElem?.mp hp)
  rw [planOf, planOf, hvalues, hinputs, houtputs, hbody]

theorem reserved_retype : (g.retype types shapes).reserved = g.reserved := by
  rw [reserved, reserved, List.flatMap_def, List.flatMap_def, map_retype fun _ _ _ => rfl]

theorem acceptable_retype (h : g.AgreesOnReads types shapes) (hacc : g.Acceptable) :
    (g.retype types shapes).Acceptable := by
  constructor
  case nodes =>
    intro id m hm
    obtain ⟨n, hn, rfl⟩ := retype_nodes_eq_some.mp hm
    exact nodeFits_retype h hn (hacc.nodes id n hn)
  case identifiers =>
    rw [reserved_retype]
    exact hacc.identifiers
  case outputNames =>
    rw [filter_map_retype (f := Node.signatureName) (fun _ _ _ => rfl) fun _ _ _ _ => rfl]
    exact hacc.outputNames
  case outputsApart =>
    intro m hm ho m' hm' hi
    obtain ⟨id, n, hn, rfl⟩ := mem_retype_nodes.mp hm
    obtain ⟨id', n', hn', rfl⟩ := mem_retype_nodes.mp hm'
    exact hacc.outputsApart n (List.mem_of_getElem? hn) ho n' (List.mem_of_getElem? hn') hi
  case outputsFree =>
    intro m hm ho hr
    obtain ⟨id, n, hn, rfl⟩ := mem_retype_nodes.mp hm
    rw [reserved_retype]
    exact hacc.outputsFree n (List.mem_of_getElem? hn) ho hr
  case fedOnce =>
    intro id m hm hi hr
    obtain ⟨n, hn, rfl⟩ := retype_nodes_eq_some.mp hm
    rw [countP_retype fun _ _ _ => rfl]
    exact hacc.fedOnce id n hn hi hr

/-! ### What is read is supported -/

theorem floatType_of_reads {id : Nat} (hfit : g.NodeFits id n) (hr : n.readsType) :
    n.HasFloatType := by
  unfold Node.readsType at hr
  unfold NodeFits at hfit
  split at hr <;> rename_i hk <;> rw [hk] at hfit
  · exact hfit.float
  · exact hfit.float
  · exact hfit.float
  · exact hfit.float
  · exact hfit.type.2 (by simpa [Node.isQuantized] using hr)
  · simp only [Bool.and_eq_true, decide_eq_true_iff, List.mem_cons, List.not_mem_nil,
      or_false] at hr
    exact (hfit.sigmoid hr.1).2 (by simpa [Node.isQuantized] using hr.2)

/-- The operands of an operator that measures have at most two extents. -/
theorem rank_of_measured {id : Nat} {m : Node} {o : UInt64} (hfit : g.NodeFits id m)
    (hm : m.measures) (ho : o ∈ m.operands) (hn : g.get? o = some n) : n.rank ≤ 2 := by
  obtain ⟨i, hi⟩ := List.mem_iff_getElem?.mp ho
  have hlt : i < m.operands.length := (List.getElem?_eq_some_iff.mp hi).1
  have hrank : g.operandRank? m i = some n.rank := by
    rw [operandRank?, operand?, hi, Option.bind_some, hn, Option.map_some]
  have hbound {r : Nat} (hr : g.operandRank? m i = some r) (hle : r ≤ 2) : n.rank ≤ 2 :=
    Option.some.inj (hr.symm.trans hrank) ▸ hle
  unfold Node.measures at hm
  split at hm
  · rename_i name a hk
    rw [NodeFits, hk] at hfit
    have harity := hfit.arity
    rw [decide_eq_true_iff] at hm
    simp only [List.mem_cons, List.not_mem_nil, or_false] at hm
    -- The arity leaves no operand whose rank the rule does not look at.
    rcases hm with rfl | rfl | rfl
    · obtain ⟨⟨r, hr, h0⟩, r', hr', h1⟩ := hfit.times rfl
      have hlen : 2 = m.operands.length := Option.some.inj harity
      have hi' : i = 0 ∨ i = 1 := by omega
      rcases hi' with rfl | rfl
      · exact hbound h0 (Nat.le_succ_of_le hr)
      · exact hbound h1 hr'
    · have hlen : 1 = m.operands.length := Option.some.inj harity
      have hi' : i = 0 := by omega
      subst hi'
      exact hbound (hfit.slice rfl) (by decide)
    · obtain ⟨h0, h1⟩ := hfit.splice rfl
      have hlen : 2 = m.operands.length := Option.some.inj harity
      have hi' : i = 0 ∨ i = 1 := by omega
      rcases hi' with rfl | rfl
      · exact hbound h0 (by decide)
      · exact hbound h1 (by decide)
  · cases hm

theorem rank_of_reads (h : g.Acceptable) {id : Nat} (hn : g.nodes[id]? = some n)
    (hr : g.readsShape id n) : n.rank ≤ 2 := by
  have hfit := h.nodes id n hn
  unfold readsShape at hr
  unfold NodeFits at hfit
  cases hk : n.kind with
  | operator name a =>
    rw [hk] at hr
    obtain ⟨m, hm, hb⟩ := List.any_eq_true.mp hr
    rw [Bool.and_eq_true, Node.consumes_iff] at hb
    obtain ⟨hmeasures, o, ho, rfl⟩ := hb
    obtain ⟨j, hj⟩ := List.mem_iff_getElem?.mp hm
    exact rank_of_measured (h.nodes j m hj) hmeasures ho hn
  | parameter | constant | input | output | quantizeMarker =>
    rw [hk] at hfit
    exact hfit.rank

/-- In a graph that can be lowered, an element type that is asked for is a floating type, and a
    shape that is asked for has at most two extents. Nothing else is asked of either: with other
    element types and shapes, equal to the declared ones where these are asked for, the graph is
    lowered to the same plan. -/
theorem declarations_read {plan : Plan} (h : g.lower naming = .ok plan) :
    (∀ (id : Nat) (n : Node), g.nodes[id]? = some n →
      (n.readsType → n.HasFloatType) ∧ (g.readsShape id n → n.rank ≤ 2)) ∧
    ∀ types shapes, g.AgreesOnReads types shapes →
      (g.retype types shapes).lower naming = .ok plan := by
  obtain ⟨hacc, rfl⟩ := lower_eq_ok_iff.mp h
  refine ⟨?_, ?_⟩
  · intro id n hn
    exact ⟨floatType_of_reads (hacc.nodes id n hn), rank_of_reads hacc hn⟩
  · intro types shapes hagrees
    exact lower_eq_ok_iff.mpr ⟨acceptable_retype hagrees hacc, planOf_retype hagrees⟩

/-- A sum of integers, and the hyperbolic tangent of it in three dimensions. -/
def unsupportedStages : Graph where
  nodes := [
    { uid := "x", kind := .input, shape := [2] },
    { uid := "p", kind := .operator "Plus" {}, shape := [2], elementType := .i32,
      operands := [0, 0] },
    { uid := "q", kind := .operator "Tanh" {}, shape := [1, 1, 1], operands := [1] },
    { uid := "y", kind := .output, shape := [2], operands := [2] }]

theorem unsupportedStages_lower :
    unsupportedStages.lower {} = .ok (unsupportedStages.planOf {}) := by
  decide +kernel

/-- The plan is that of the graph whose stages are vectors of single precision. -/
theorem unsupportedStages_retyped :
    unsupportedStages.lower {} = .ok (unsupportedStages.planOf {}) ∧
    unsupportedStages.AgreesOnReads (fun _ => .f32) (fun _ => [2]) ∧
    (unsupportedStages.retype (fun _ => .f32) (fun _ => [2])).lower {} =
      .ok (unsupportedStages.planOf {}) := by
  have hagrees : unsupportedStages.AgreesOnReads (fun _ => .f32) (fun _ => [2]) := by
    constructor <;> intro id n hn <;> rcases id with _ | _ | _ | _ | id <;> cases hn <;> decide
  exact ⟨unsupportedStages_lower, hagrees,
    (declarations_read unsupportedStages_lower).2 _ _ hagrees⟩

/-- That every node of a lowered graph has a floating type is not so, nor that every node has at
    most two extents. -/
theorem not_allSupported :
    (¬ ∀ (g : Graph) (naming : Naming) (plan : Plan), g.lower naming = .ok plan →
      ∀ n ∈ g.nodes, n.HasFloatType) ∧
    ¬ ∀ (g : Graph) (naming : Naming) (plan : Plan), g.lower naming = .ok plan →
      ∀ n ∈ g.nodes, n.rank ≤ 2 := by
  refine ⟨?_, ?_⟩
  · intro h
    have hp := h _ _ _ unsupportedStages_lower unsupportedStages.nodes[1] (by decide)
    rcases hp with ht | ht <;> cases ht
  · intro h
    have hq := h _ _ _ unsupportedStages_lower unsupportedStages.nodes[2] (by decide)
    exact absurd hq (by decide)

end Graph

end EvaluatorGen
