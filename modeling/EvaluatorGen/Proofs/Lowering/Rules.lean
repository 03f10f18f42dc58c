import EvaluatorGen.Proofs.Lowering.Acceptable

/-!
What each rule of lowering takes, and what it gives.

A rule looks operands up in the scope of the nodes before the current one. When that scope is
the one of `Graph.draft`, every rule has one statement: it succeeds exactly on the nodes that
`NodeFits` describes, and then gives `Graph.fragment`. The rules of inputs and outputs ask in
addition that no earlier node of the same kind has the name (`NameFree`). `ofNode_ok_iff` joins
the rules; the walk uses nothing else of them.
-/
namespace EvaluatorGen

/-! ### Computations that may fail -/

theorem bind_eq_ok_iff {ε α β : Type} {x : Except ε α} {f : α → Except ε β} {b : β} :
    (x >>= f) = .ok b ↔ ∃ a, x = .ok a ∧ f a = .ok b := by
  cases x with
  | error e => simp [bind, Except.bind]
  | ok a => simp [bind, Except.bind]

theorem ok_bind {ε α β : Type} (a : α) (f : α → Except ε β) : (.ok a >>= f) = f a := rfl

theorem pure_eq_ok_iff {ε α : Type} {a b : α} : (pure a : Except ε α) = .ok b ↔ a = b := by
  simp [pure, Except.pure]

namespace Node

/-! ### Types and shapes -/

theorem sourceType_ok_iff {n : Node} {t : ScalarType} :
    n.sourceType = .ok t ↔ n.HasFloatType ∧ n.floatType = t := by
  unfold sourceType HasFloatType floatType
  cases n.elementType <;> simp

theorem resolvedType_ok_iff {n : Node} {t : ScalarType} :
    n.resolvedType = .ok t ↔ n.HasValueType ∧ n.valueType = t := by
  unfold resolvedType HasValueType HasWidth valueType
  cases hq : n.quantization with
  | none => simp [sourceType_ok_iff]
  | some q =>
    simp only [widthType, Option.some.injEq, forall_eq', reduceCtorEq, false_implies, and_true]
    by_cases h8 : q.bits = 8
    · simp [h8]
    · by_cases h16 : q.bits = 16 <;> simp [h8, h16]

theorem bufferDims_ok_iff {n : Node} {dims : List UInt64} :
    n.bufferDims = .ok dims ↔ n.rank ≤ 2 ∧ n.sizes.reverse = dims := by
  unfold bufferDims rank sizes unsupported
  rcases n.shape with _ | ⟨a, _ | ⟨b, _ | ⟨c, s⟩⟩⟩ <;> simp

theorem indexVars_ok_iff {n : Node} {vars : IndexVars} :
    n.indexVars = .ok vars ↔ n.rank ≤ 2 ∧ n.vars = vars := by
  unfold indexVars Node.vars rank unsupported
  rcases n.shape with _ | ⟨a, _ | ⟨b, _ | ⟨c, s⟩⟩⟩ <;> simp

theorem quantizeDims_ok_iff {n : Node} {dims : List UInt64} :
    n.quantizeDims = .ok dims ↔ n.rank ≤ 2 ∧ n.sizes = dims := by
  unfold quantizeDims rank sizes unsupported
  rcases n.shape with _ | ⟨a, _ | ⟨b, _ | ⟨c, s⟩⟩⟩ <;> simp

theorem matrixDims_ok_iff {n : Node} {dims : UInt64 × UInt64} :
    n.matrixDims = .ok dims ↔ n.rank ≤ 2 ∧ (n.shape.getD 0 1, n.shape.getD 1 1) = dims := by
  unfold matrixDims rank unsupported
  rcases n.shape with _ | ⟨a, _ | ⟨b, _ | ⟨c, s⟩⟩⟩ <;> simp

theorem requireVector_ok_iff {n : Node} {u : Unit} : n.requireVector = .ok u ↔ n.rank ≤ 1 := by
  unfold requireVector rank unsupported
  rcases n.shape with _ | ⟨a, _ | ⟨b, s⟩⟩ <;> simp

theorem vectorLength_ok_iff {n : Node} {rule : ShapeRule} {len : UInt64} :
    n.vectorLength rule = .ok len ↔ n.rank = 1 ∧ n.shape.getD 0 1 = len := by
  unfold vectorLength rank unsupported
  rcases n.shape with _ | ⟨a, _ | ⟨b, s⟩⟩ <;> simp

/-! ### Leaves -/

theorem symbol_of_not_input {n : Node} (h : n.kind ≠ .input) :
    n.symbol = Identifier.ofText n.uid := by
  unfold symbol
  split
  · contradiction
  · rfl

theorem leafFits_iff {n : Node} : n.LeafFits ↔ n.HasFloatType ∧ n.HasValueType ∧ n.rank ≤ 2 := by
  refine ⟨?_, ?_⟩
  · intro h
    exact ⟨h.float, ⟨h.width, fun _ => h.float⟩, h.rank⟩
  · intro hx
    obtain ⟨hf, hv, hr⟩ := hx
    exact ⟨hf, hr, hv.1⟩

theorem ofLeaf_ok_iff (g : Graph) (k : Nat) {n : Node} {f : Fragment} (h : n.isLeaf) :
    Fragment.ofLeaf n = .ok f ↔ n.LeafFits ∧ g.fragment k n = f := by
  have hs : n.symbol = Identifier.ofText n.uid := symbol_of_not_input (by
    rcases isLeaf_iff.mp h with h | h <;> simp [h])
  have hf : g.fragment k n = {
      symbol := some n.symbol
      claims := Fragment.leafClaims n.symbol n.isQuantized
      values := [n.leafValue]
      body := Fragment.leafBody n.symbol n.valueType n.sizes.reverse n.vars n.isQuantized } := by
    rcases isLeaf_iff.mp h with h' | h' <;>
      simp [Graph.fragment, symbol?, identifiers, isInput, isOutput, Graph.statements, h, h',
        Fragment.leafClaims, Fragment.leafBody, leafStatements]
  -- The extents and the index variables ask for the rank both, so it is one condition.
  simp only [Fragment.ofLeaf, bind_eq_ok_iff, pure_eq_ok_iff, sourceType_ok_iff,
    resolvedType_ok_iff, bufferDims_ok_iff, indexVars_ok_iff, leafFits_iff, hf, ← hs,
    ← isQuantized.eq_def]
  refine ⟨?_, ?_⟩
  · intro hx
    obtain ⟨_, ⟨h₁, rfl⟩, _, ⟨h₂, rfl⟩, _, ⟨h₃, rfl⟩, _, ⟨-, rfl⟩, rfl⟩ := hx
    exact ⟨⟨h₁, h₂, h₃⟩, rfl⟩
  · intro hx
    obtain ⟨⟨h₁, h₂, h₃⟩, rfl⟩ := hx
    exact ⟨_, ⟨h₁, rfl⟩, _, ⟨h₂, rfl⟩, _, ⟨h₃, rfl⟩, _, ⟨h₃, rfl⟩, rfl⟩

end Node

namespace Graph

variable {g : Graph} {k : Nat} {n : Node} {f : Fragment}

/-! ### Operands -/

theorem draft_lowered_getElem? {o : Nat} :
    (g.draft k).scope.lowered[o]? =
      if o < k then g.nodes[o]?.map fun m => ⟨m, m.symbol?⟩ else none := by
  simp only [draft, List.getElem?_map, List.getElem?_take]
  split <;> rfl

theorem Available.node {o : UInt64} (h : g.Available k o) : ∃ m, g.get? o = some m := by
  obtain ⟨-, m, hm, -⟩ := h
  exact ⟨m, hm⟩

theorem operand_ok_iff {o : UInt64} {r : Node × String} :
    (g.draft k).scope.operand n o = .ok r ↔
      g.Available k o ∧ ∃ m, g.get? o = some m ∧ (m, g.symbolAt o) = r := by
  unfold Scope.operand Available
  rw [draft_lowered_getElem?]
  by_cases ho : o.toNat < k
  · rw [if_pos ho]
    cases hm : g.nodes[o.toNat]? with
    | none => simp [get?, hm]
    | some m =>
      -- An output is in the table, but has no symbol there.
      by_cases hk : m.kind = .output
      · simp [get?, hm, hk, Node.symbol?]
      · simp [get?, hm, hk, ho, Node.symbol?, symbolAt]
  · rw [if_neg ho]
    simp [ho]

/-! ### Operators -/

theorem ofBinary_ok_iff {op : BinaryOp} {x y : UInt64} {shared : Bool} :
    Fragment.ofBinary (g.draft k).scope n shared op x y = .ok f ↔
      g.Available k x ∧ g.Available k y ∧
      Fragment.stage n (.call op.callee [.ref (g.symbolAt x), .ref (g.symbolAt y)]) shared = f := by
  simp only [Fragment.ofBinary, bind_eq_ok_iff, pure_eq_ok_iff, operand_ok_iff]
  refine ⟨?_, ?_⟩
  · intro h
    obtain ⟨_, ⟨hx, _, -, rfl⟩, _, ⟨hy, _, -, rfl⟩, rfl⟩ := h
    exact ⟨hx, hy, rfl⟩
  · intro h
    obtain ⟨hx, hy, rfl⟩ := h
    obtain ⟨m, hm⟩ := hx.node
    obtain ⟨m', hm'⟩ := hy.node
    exact ⟨_, ⟨hx, m, hm, rfl⟩, _, ⟨hy, m', hm', rfl⟩, rfl⟩

theorem operatorFits_iff {name : String} {a : Attributes} :
    g.OperatorFits k n name a ↔
      operandCount? name = some n.operands.length ∧ (∀ o ∈ n.operands, g.Available k o) ∧
      (name = "Slice" →
        ((a.stride = none ∨ a.stride = some 1) ∧ a.beginIndex.isSome ∧ a.endIndex.isSome) ∧
        g.operandRank? n 0 = some 1) ∧
      (name = "Times" →
        (∃ r ≤ 1, g.operandRank? n 0 = some r) ∧ ∃ r ≤ 2, g.operandRank? n 1 = some r) ∧
      (name = "Splice" → g.operandRank? n 0 = some 1 ∧ g.operandRank? n 1 = some 1) ∧
      (name = "Sigmoid" ∨ name = "StableSigmoid" → n.HasValueType) := by
  refine ⟨?_, ?_⟩
  · intro h
    exact ⟨h.arity, h.available, fun hn => ⟨h.bounds hn, h.slice hn⟩, h.times, h.splice, h.sigmoid⟩
  · intro hx
    obtain ⟨h₁, h₂, h₃, h₄, h₅, h₆⟩ := hx
    exact ⟨h₁, h₂, fun hn => (h₃ hn).1, fun hn => (h₃ hn).2, h₄, h₅, h₆⟩

theorem fragment_operator {name : String} {a : Attributes} {c : Callee}
    (hk : n.kind = .operator name a) (hc : n.callee? = some c) :
    g.fragment k n =
      Fragment.stage n (g.callExpr n c) (n.isArithmetic && g.isShared k) := by
  have hs : n.symbol = Identifier.ofText n.uid := Node.symbol_of_not_input (by simp [hk])
  simp [fragment, Fragment.stage, Node.symbol?, Node.identifiers, Node.isLeaf, NodeKind.isLeaf,
    Node.isInput, Node.isOutput, statements, hk, hc, hs]

theorem ofBinaryOperation_ok_iff (op : BinaryOp) {a : Attributes}
    (hk : n.kind = .operator (Operation.binary op).name a) :
    Fragment.ofOperation (g.draft k).scope n (g.isShared k) (.binary op) = .ok f ↔
      g.OperatorFits k n (Operation.binary op).name a ∧ g.fragment k n = f := by
  have hc : n.callee? = some op.callee := by
    cases op <;> simp [Node.callee?, hk, Operation.name, BinaryOp.callee]
  have hfit : g.OperatorFits k n (Operation.binary op).name a ↔
      2 = n.operands.length ∧ ∀ o ∈ n.operands, g.Available k o := by
    cases op <;> simp [operatorFits_iff, Operation.name, operandCount?]
  have harith : n.isArithmetic = true := by
    cases op <;> simp [Node.isArithmetic, hk, Operation.name]
  have hlit : g.literals n = [] := by
    cases op <;> simp [literals, hk, Operation.name]
  rw [hfit, fragment_operator hk hc, harith, Bool.true_and, callExpr, hlit]
  -- Any other number of operands is refused before one of them is looked up.
  rcases ho : n.operands with _ | ⟨x, _ | ⟨y, _ | ⟨z, os⟩⟩⟩
  · simp [Fragment.ofOperation, ho]
  · simp [Fragment.ofOperation, ho]
  · simp [Fragment.ofOperation, ho, ofBinary_ok_iff, and_assoc]
  · simp [Fragment.ofOperation, ho]

theorem ofUnary_ok_iff {op : UnaryOp} {x : UInt64} :
    Fragment.ofUnary (g.draft k).scope n op x = .ok f ↔
      g.Available k x ∧ ∃ c, Fragment.unaryCallee n op = .ok c ∧
      Fragment.stage n (.call c [.ref (g.symbolAt x)]) false = f := by
  simp only [Fragment.ofUnary, bind_eq_ok_iff, pure_eq_ok_iff, operand_ok_iff]
  refine ⟨?_, ?_⟩
  · intro h
    obtain ⟨_, ⟨hx, _, -, rfl⟩, c, hc, rfl⟩ := h
    exact ⟨hx, c, hc, rfl⟩
  · intro h
    obtain ⟨hx, c, hc, rfl⟩ := h
    obtain ⟨m, hm⟩ := hx.node
    exact ⟨_, ⟨hx, m, hm, rfl⟩, c, hc, rfl⟩

theorem unaryCallee_ok_iff {op : UnaryOp} {name : String} {a : Attributes} {c : Callee}
    (hn : name = (Operation.unary op).name ∨ op = .sigmoid ∧ name = "StableSigmoid")
    (hk : n.kind = .operator name a) :
    Fragment.unaryCallee n op = .ok c ↔
      (name = "Sigmoid" ∨ name = "StableSigmoid" → n.HasValueType) ∧ n.callee? = some c := by
  cases op with
  | log =>
    obtain rfl : name = "Log" := by simpa [Operation.name] using hn
    simp [Fragment.unaryCallee, Node.callee?, hk]
  | tanh =>
    obtain rfl : name = "Tanh" := by simpa [Operation.name] using hn
    simp [Fragment.unaryCallee, Node.callee?, hk]
  | sigmoid =>
    have hname : name = "Sigmoid" ∨ name = "StableSigmoid" := hn.imp id And.right
    have hcallee : n.callee? = some (.sigmoid n.valueType) := by
      rcases hname with rfl | rfl <;> simp [Node.callee?, hk]
    rw [hcallee]
    simp only [Fragment.unaryCallee, bind_eq_ok_iff, pure_eq_ok_iff, Node.resolvedType_ok_iff]
    constructor
    · intro h
      obtain ⟨_, ⟨hv, rfl⟩, rfl⟩ := h
      exact ⟨fun _ => hv, rfl⟩
    · intro h
      exact ⟨_, ⟨h.1 hname, rfl⟩, Option.some.inj h.2⟩

theorem ofUnaryOperation_ok_iff {op : UnaryOp} {name : String} {a : Attributes}
    (hn : name = (Operation.unary op).name ∨ op = .sigmoid ∧ name = "StableSigmoid")
    (hk : n.kind = .operator name a) :
    Fragment.ofOperation (g.draft k).scope n (g.isShared k) (.unary op) = .ok f ↔
      g.OperatorFits k n name a ∧ g.fragment k n = f := by
  -- The two sigmoids are one operation under two names.
  have hname : name = "Log" ∨ name = "Tanh" ∨ name = "Sigmoid" ∨ name = "StableSigmoid" := by
    rcases hn with rfl | ⟨-, rfl⟩
    · cases op <;> simp [Operation.name]
    · simp
  have hfit : g.OperatorFits k n name a ↔ (1 = n.operands.length ∧
      ∀ o ∈ n.operands, g.Available k o) ∧
      (name = "Sigmoid" ∨ name = "StableSigmoid" → n.HasValueType) := by
    rcases hname with rfl | rfl | rfl | rfl <;> simp [operatorFits_iff, operandCount?, and_assoc]
  have harith : n.isArithmetic = false := by
    rcases hname with rfl | rfl | rfl | rfl <;> simp [Node.isArithmetic, hk]
  have hlit : g.literals n = [] := by
    rcases hname with rfl | rfl | rfl | rfl <;> simp [literals, hk]
  have hcallee : ∃ c, n.callee? = some c := by
    rcases hname with rfl | rfl | rfl | rfl <;> simp [Node.callee?, hk]
  obtain ⟨c, hc⟩ := hcallee
  rw [hfit, fragment_operator hk hc, harith, Bool.false_and, callExpr, hlit]
  rcases ho : n.operands with _ | ⟨x, _ | ⟨y, os⟩⟩
  · simp [Fragment.ofOperation, ho]
  · simp [Fragment.ofOperation, ho, ofUnary_ok_iff, unaryCallee_ok_iff hn hk, hc, and_assoc]
  · simp [Fragment.ofOperation, ho]

theorem ofTimes_ok_iff {x w : UInt64} {shared : Bool} :
    Fragment.ofTimes (g.draft k).scope n shared x w = .ok f ↔
      (g.Available k x ∧ g.Available k w) ∧
      ((∃ r ≤ 1, (g.get? x).map Node.rank = some r) ∧
        ∃ r ≤ 2, (g.get? w).map Node.rank = some r) ∧
      Fragment.stage n
        (.call (if n.isQuantized then .vectorByMatrixTimesQuantized else .vectorByMatrixTimes)
          [.ref (g.symbolAt x), .ref (g.symbolAt w),
           .ofSize ((((g.get? w).map Node.shape).getD []).getD 0 1),
           .ofSize ((((g.get? w).map Node.shape).getD []).getD 1 1)]) shared = f := by
  simp only [Fragment.ofTimes, bind_eq_ok_iff, pure_eq_ok_iff, operand_ok_iff,
    Node.requireVector_ok_iff, Node.matrixDims_ok_iff]
  refine ⟨?_, ?_⟩
  · intro h
    obtain ⟨_, ⟨hx, m, hm, rfl⟩, _, hr, _, ⟨hw, m', hm', rfl⟩, _, ⟨hr', rfl⟩, rfl⟩ := h
    refine ⟨⟨hx, hw⟩, ⟨⟨m.rank, hr, by simp [hm]⟩, ⟨m'.rank, hr', by simp [hm']⟩⟩, ?_⟩
    rw [hm']
    rfl
  · intro h
    obtain ⟨⟨hx, hw⟩, ⟨⟨r, hr, hxr⟩, ⟨r', hr', hwr⟩⟩, rfl⟩ := h
    obtain ⟨m, hm⟩ := hx.node
    obtain ⟨m', hm'⟩ := hw.node
    obtain rfl : m.rank = r := by simpa [hm] using hxr
    obtain rfl : m'.rank = r' := by simpa [hm'] using hwr
    refine ⟨_, ⟨hx, m, hm, rfl⟩, (), hr, _, ⟨hw, m', hm', rfl⟩, _, ⟨hr', rfl⟩, ?_⟩
    rw [hm']
    rfl

theorem ofTimesOperation_ok_iff {a : Attributes} (hk : n.kind = .operator "Times" a) :
    Fragment.ofOperation (g.draft k).scope n (g.isShared k) .times = .ok f ↔
      g.OperatorFits k n "Times" a ∧ g.fragment k n = f := by
  have hc : n.callee? = some
      (if n.isQuantized then .vectorByMatrixTimesQuantized else .vectorByMatrixTimes) := by
    simp [Node.callee?, hk]
  rw [fragment_operator hk hc, show n.isArithmetic = true by simp [Node.isArithmetic, hk]]
  rcases ho : n.operands with _ | ⟨x, _ | ⟨w, _ | ⟨z, os⟩⟩⟩
  · simp [Fragment.ofOperation, ho, operatorFits_iff, operandCount?]
  · simp [Fragment.ofOperation, ho, operatorFits_iff, operandCount?]
  · simp [Fragment.ofOperation, ho, operatorFits_iff, operandCount?, ofTimes_ok_iff, callExpr,
      literals, hk, operandRank?, operand?, operandShape, Expr.ofSize, and_assoc]
  · simp [Fragment.ofOperation, ho, operatorFits_iff, operandCount?]

theorem ofSlice_ok_iff {first last : Int64} {x : UInt64} :
    Fragment.ofSlice (g.draft k).scope n first last x = .ok f ↔
      g.Available k x ∧ (g.get? x).map Node.rank = some 1 ∧
      Fragment.stage n (.call .slice [.ref (g.symbolAt x), .int first, .int last]) false = f := by
  simp only [Fragment.ofSlice, bind_eq_ok_iff, pure_eq_ok_iff, operand_ok_iff,
    Node.vectorLength_ok_iff]
  refine ⟨?_, ?_⟩
  · intro h
    obtain ⟨_, ⟨hx, m, hm, rfl⟩, _, ⟨hr, -⟩, rfl⟩ := h
    exact ⟨hx, by simp [hm, hr], rfl⟩
  · intro h
    obtain ⟨hx, hr, rfl⟩ := h
    obtain ⟨m, hm⟩ := hx.node
    exact ⟨_, ⟨hx, m, hm, rfl⟩, _, ⟨by simpa [hm] using hr, rfl⟩, rfl⟩

theorem sliceOf_ok_iff {uid : String} {a : Attributes} {op : Operation} :
    Operation.sliceOf uid a = .ok op ↔
      ((a.stride = none ∨ a.stride = some 1) ∧ a.beginIndex.isSome ∧ a.endIndex.isSome) ∧
      .slice (a.beginIndex.getD 0) (a.endIndex.getD 0) = op := by
  have hstride : a.stride.filter (· != 1) = none ↔ a.stride = none ∨ a.stride = some 1 := by
    cases a.stride <;> simp [Option.filter]
  rw [← hstride]
  unfold Operation.sliceOf
  cases a.stride.filter (· != 1) <;> cases a.beginIndex <;> cases a.endIndex <;> simp

theorem ofSplice_ok_iff {x y : UInt64} :
    Fragment.ofSplice (g.draft k).scope n x y = .ok f ↔
      (g.Available k x ∧ g.Available k y) ∧
      ((g.get? x).map Node.rank = some 1 ∧ (g.get? y).map Node.rank = some 1) ∧
      Fragment.stage n
        (.call .splice
          [.ref (g.symbolAt x), .ref (g.symbolAt y),
           .ofSize ((((g.get? x).map Node.shape).getD []).getD 0 1),
           .ofSize ((((g.get? y).map Node.shape).getD []).getD 0 1)]) false = f := by
  simp only [Fragment.ofSplice, bind_eq_ok_iff, pure_eq_ok_iff, operand_ok_iff,
    Node.vectorLength_ok_iff]
  refine ⟨?_, ?_⟩
  · intro h
    obtain ⟨_, ⟨hx, m, hm, rfl⟩, _, ⟨hy, m', hm', rfl⟩, _, ⟨hr, rfl⟩, _, ⟨hr', rfl⟩, rfl⟩ := h
    refine ⟨⟨hx, hy⟩, ⟨by simp [hm, hr], by simp [hm', hr']⟩, ?_⟩
    simp [hm, hm']
  · intro h
    obtain ⟨⟨hx, hy⟩, ⟨hr, hr'⟩, rfl⟩ := h
    obtain ⟨m, hm⟩ := hx.node
    obtain ⟨m', hm'⟩ := hy.node
    refine ⟨_, ⟨hx, m, hm, rfl⟩, _, ⟨hy, m', hm', rfl⟩, _, ⟨by simpa [hm] using hr, rfl⟩, _,
      ⟨by simpa [hm'] using hr', rfl⟩, ?_⟩
    simp [hm, hm']

theorem ofSpliceOperation_ok_iff {a : Attributes} (hk : n.kind = .operator "Splice" a) :
    Fragment.ofOperation (g.draft k).scope n (g.isShared k) .splice = .ok f ↔
      g.OperatorFits k n "Splice" a ∧ g.fragment k n = f := by
  have hc : n.callee? = some .splice := by simp [Node.callee?, hk]
  rw [fragment_operator hk hc, show n.isArithmetic = false by simp [Node.isArithmetic, hk]]
  rcases ho : n.operands with _ | ⟨x, _ | ⟨w, _ | ⟨z, os⟩⟩⟩
  · simp [Fragment.ofOperation, ho, operatorFits_iff, operandCount?]
  · simp [Fragment.ofOperation, ho, operatorFits_iff, operandCount?]
  · simp [Fragment.ofOperation, ho, operatorFits_iff, operandCount?, ofSplice_ok_iff, callExpr,
      literals, hk, operandRank?, operand?, operandShape, Expr.ofSize, and_assoc]
  · simp [Fragment.ofOperation, ho, operatorFits_iff, operandCount?]

theorem ofSliceOperation_ok_iff {a : Attributes} (hk : n.kind = .operator "Slice" a) :
    (∃ op, Operation.sliceOf n.uid a = .ok op ∧
      Fragment.ofOperation (g.draft k).scope n (g.isShared k) op = .ok f) ↔
      g.OperatorFits k n "Slice" a ∧ g.fragment k n = f := by
  have hc : n.callee? = some .slice := by simp [Node.callee?, hk]
  rw [fragment_operator hk hc, show n.isArithmetic = false by simp [Node.isArithmetic, hk]]
  have hop : (∃ op, Operation.sliceOf n.uid a = .ok op ∧
      Fragment.ofOperation (g.draft k).scope n (g.isShared k) op = .ok f) ↔
      ((a.stride = none ∨ a.stride = some 1) ∧ a.beginIndex.isSome ∧ a.endIndex.isSome) ∧
      Fragment.ofOperation (g.draft k).scope n (g.isShared k)
        (.slice (a.beginIndex.getD 0) (a.endIndex.getD 0)) = .ok f := by
    simp only [sliceOf_ok_iff, and_assoc, exists_and_left, exists_eq_left']
  rw [hop]
  rcases ho : n.operands with _ | ⟨x, _ | ⟨w, os⟩⟩
  · simp [Fragment.ofOperation, ho, operatorFits_iff, operandCount?]
  · simp [Fragment.ofOperation, ho, operatorFits_iff, operandCount?, ofSlice_ok_iff, callExpr,
      literals, hk, operandRank?, operand?]
    grind
  · simp [Fragment.ofOperation, ho, operatorFits_iff, operandCount?]

theorem ofOperator_ok_iff {name : String} {a : Attributes} (hk : n.kind = .operator name a) :
    Fragment.ofOperator (g.draft k).scope n (g.isShared k) = .ok f ↔
      g.OperatorFits k n name a ∧ g.fragment k n = f := by
  simp only [Fragment.ofOperator, bind_eq_ok_iff]
  by_cases hn : name ∈ ["Plus", "Minus", "ElementTimes", "Log", "Tanh", "Sigmoid",
      "StableSigmoid", "Times", "Slice", "Splice"]
  · simp only [List.mem_cons, List.not_mem_nil, or_false] at hn
    rcases hn with rfl | rfl | rfl | rfl | rfl | rfl | rfl | rfl | rfl | rfl
    · simpa [Operation.ofNode, hk, Operation.name] using ofBinaryOperation_ok_iff .plus hk
    · simpa [Operation.ofNode, hk, Operation.name] using ofBinaryOperation_ok_iff .minus hk
    · simpa [Operation.ofNode, hk, Operation.name] using ofBinaryOperation_ok_iff .elementTimes hk
    · simpa [Operation.ofNode, hk, Operation.name] using ofUnaryOperation_ok_iff (.inl rfl) hk
    · simpa [Operation.ofNode, hk, Operation.name] using ofUnaryOperation_ok_iff (.inl rfl) hk
    · simpa [Operation.ofNode, hk, Operation.name] using ofUnaryOperation_ok_iff (.inl rfl) hk
    · simpa [Operation.ofNode, hk] using ofUnaryOperation_ok_iff (.inr ⟨rfl, rfl⟩) hk
    · simpa [Operation.ofNode, hk] using ofTimesOperation_ok_iff hk
    · simpa [Operation.ofNode, hk] using ofSliceOperation_ok_iff hk
    · simpa [Operation.ofNode, hk] using ofSpliceOperation_ok_iff hk
  · simp only [List.mem_cons, List.not_mem_nil, or_false, not_or] at hn
    simp [Operation.ofNode, hk, operatorFits_iff, operandCount?, hn]

/-! ### Signature -/

/-- The name of an input or output is not taken by an earlier node of its kind. -/
def NameFree (g : Graph) (k : Nat) (n : Node) : Prop :=
  (n.isInput → ∀ m ∈ g.nodes.take k, m.isInput → m.signatureName ≠ n.signatureName) ∧
  (n.isOutput → ∀ m ∈ g.nodes.take k, m.isOutput → m.signatureName ≠ n.signatureName)

theorem symbol_of_input (h : n.isInput) : n.symbol = n.signatureName := by
  have hk := Node.isInput_iff.mp h
  simp [Node.symbol, hk]

theorem draft_inputs_any {name : String} :
    (g.draft k).scope.inputs.any (·.name == name) = true ↔
      ∃ m ∈ g.nodes.take k, m.isInput ∧ m.signatureName = name := by
  simp only [draft, List.any_map, List.any_filter, List.any_eq_true, Bool.and_eq_true,
    Function.comp_apply, beq_iff_eq]
  refine ⟨?_, ?_⟩
  · intro h
    obtain ⟨m, hm, hi, rfl⟩ := h
    exact ⟨m, hm, hi, (symbol_of_input hi).symm⟩
  · intro h
    obtain ⟨m, hm, hi, rfl⟩ := h
    exact ⟨m, hm, hi, symbol_of_input hi⟩

theorem fragment_input (hk : n.kind = .input) :
    g.fragment k n = {
      symbol := some n.signatureName
      claims := n.signatureName ::
        if n.isRecurrent then
          [Identifier.history n.signatureName, Identifier.historyParam n.signatureName]
        else []
      inputs := [n.inputBinding] } := by
  simp [fragment, Node.symbol?, Node.identifiers, Node.isLeaf, NodeKind.isLeaf, Node.isInput,
    Node.isOutput, statements, Node.symbol, hk]

theorem nameFree_input_iff (hk : n.kind = .input) :
    g.NameFree k n ↔ ¬ (g.draft k).scope.inputs.any (·.name == n.signatureName) = true := by
  rw [draft_inputs_any]
  simp [NameFree, Node.isInput, Node.isOutput, hk]

theorem ofInput_ok_iff (hk : n.kind = .input) :
    Fragment.ofInput (g.draft k).scope n = .ok f ↔
      (n.InputFits ∧ g.NameFree k n) ∧ g.fragment k n = f := by
  have hfits : n.InputFits ↔ n.HasValueType ∧ n.rank ≤ 2 :=
    ⟨fun h => ⟨h.type, h.rank⟩, fun h => ⟨h.2, h.1⟩⟩
  -- Whether an input is recurrent is read off its slot here, and off its offset in the graph.
  have hbind :
      ({ symbol := some n.signatureName
         claims := n.signatureName ::
           if (n.recurrenceOffset.map fun offset =>
               (⟨offset, n.sizes.reverse⟩ : RecurrentSlot)).isSome then
             [Identifier.history n.signatureName, Identifier.historyParam n.signatureName]
           else []
         inputs := [{
           name := n.signatureName, uid := n.uid, element := n.valueType,
           recurrence := n.recurrenceOffset.map fun offset => ⟨offset, n.sizes.reverse⟩ }] } :
        Fragment) = g.fragment k n := by
    rw [fragment_input hk]
    cases hr : n.recurrenceOffset <;>
      simp [Node.inputBinding, Node.isRecurrent, Node.symbol, hk, hr]
  rw [hfits, nameFree_input_iff hk]
  simp only [Fragment.ofInput, ← Node.signatureName.eq_def]
  by_cases hany : (g.draft k).scope.inputs.any (·.name == n.signatureName) = true
  · simp [hany, bind_eq_ok_iff]
  · simp only [bind_eq_ok_iff, pure_eq_ok_iff, Node.resolvedType_ok_iff, Node.bufferDims_ok_iff,
      hany, if_false, not_false_eq_true, and_true, Bool.false_eq_true]
    constructor
    · intro hx
      obtain ⟨_, ⟨ht, rfl⟩, _, ⟨hr, rfl⟩, rfl⟩ := hx
      exact ⟨⟨ht, hr⟩, hbind.symm⟩
    · intro hx
      obtain ⟨⟨ht, hr⟩, rfl⟩ := hx
      exact ⟨_, ⟨ht, rfl⟩, _, ⟨hr, rfl⟩, hbind⟩

/-! ### Quantize markers -/

theorem markerOperand_ok_iff {r : UInt64 × Quantization} :
    Fragment.markerOperand n = .ok r ↔ n.operands = [r.1] ∧ n.quantization = some r.2 := by
  unfold Fragment.markerOperand
  rcases n.operands with _ | ⟨x, _ | ⟨y, os⟩⟩ <;> cases n.quantization <;> simp [Prod.ext_iff]

theorem ofMarker_ok_iff (hk : n.kind = .quantizeMarker) :
    Fragment.ofMarker (g.draft k).scope n = .ok f ↔ g.MarkerFits k n ∧ g.fragment k n = f := by
  have hs : n.symbol = Identifier.ofText n.uid := Node.symbol_of_not_input (by simp [hk])
  have hc : n.callee? = some (.quantize n.floatType n.valueType) := by simp [Node.callee?, hk]
  have hf : ∀ x q, n.operands = [x] → n.quantization = some q → g.fragment k n = {
      symbol := some n.symbol
      claims := [n.symbol]
      body := [.funcGroup n.symbol (.call (.quantize n.floatType n.valueType)
        (.ref (g.symbolAt x) :: n.sizes.map Expr.ofSize ++
          [.int q.reservedBits.toUInt64.toInt64]))] } := by
    intro x q ho hq
    simp [fragment, Node.symbol?, Node.identifiers, Node.isLeaf, NodeKind.isLeaf, Node.isInput,
      Node.isOutput, statements, hk, hc, callExpr, literals, ho, hq, Function.comp_def,
      Expr.ofSize]
  simp only [Fragment.ofMarker, bind_eq_ok_iff, pure_eq_ok_iff, markerOperand_ok_iff,
    operand_ok_iff, Node.quantizeDims_ok_iff, Node.sourceType_ok_iff, Node.resolvedType_ok_iff,
    ← hs]
  refine ⟨?_, ?_⟩
  · intro hp
    obtain ⟨⟨x, q⟩, ⟨ho, hq⟩, _, ⟨hx, _, -, rfl⟩, _, ⟨hr, rfl⟩, _, ⟨hfl, rfl⟩, _, ⟨ht, rfl⟩,
      rfl⟩ := hp
    refine ⟨⟨by simp [ho], ?_, by simp [Node.isQuantized, hq], ht.1, hfl, hr⟩, hf x q ho hq⟩
    simpa [ho] using hx
  · intro hp
    obtain ⟨h, rfl⟩ := hp
    obtain ⟨x, ho⟩ := List.length_eq_one_iff.mp h.arity
    obtain ⟨q, hq⟩ := Option.isSome_iff_exists.mp h.quantized
    have hx : g.Available k x := h.available x (by simp [ho])
    obtain ⟨m, hm⟩ := hx.node
    exact ⟨⟨x, q⟩, ⟨ho, hq⟩, _, ⟨hx, m, hm, rfl⟩, _, ⟨h.rank, rfl⟩, _, ⟨h.float, rfl⟩, _,
      ⟨⟨h.width, fun _ => h.float⟩, rfl⟩, (hf x q ho hq).symm⟩

/-! ### Outputs -/

theorem outputOperands_ok_iff {r : UInt64 × Option UInt64} :
    Fragment.outputOperands n = .ok r ↔
      n.isRecurrent = r.2.isSome ∧ n.operands = r.1 :: r.2.toList := by
  obtain ⟨x, t⟩ := r
  unfold Fragment.outputOperands Node.isRecurrent
  cases n.recurrenceOffset.isSome <;> cases t <;>
    rcases n.operands with _ | ⟨a, _ | ⟨b, _ | ⟨c, os⟩⟩⟩ <;> simp

theorem feedbackName_ok_iff {id : UInt64} {name : String} :
    Fragment.feedbackName (g.draft k).scope n id = .ok name ↔
      g.Available k id ∧ ∃ m, g.get? id = some m ∧ (m.kind = .input ∧ m.isRecurrent) ∧
        m.symbol = name := by
  simp only [Fragment.feedbackName, bind_eq_ok_iff, operand_ok_iff]
  refine ⟨?_, ?_⟩
  · intro hx
    obtain ⟨_, ⟨ha, m, hm, rfl⟩, h⟩ := hx
    by_cases hin : m.kind = .input ∧ m.recurrenceOffset.isSome
    · rw [if_pos hin, pure_eq_ok_iff] at h
      exact ⟨ha, m, hm, hin, by rw [← h, symbol_of_input (Node.isInput_iff.mpr hin.1)]; rfl⟩
    · rw [if_neg hin] at h
      cases h
  · intro hx
    obtain ⟨ha, m, hm, hin, rfl⟩ := hx
    refine ⟨_, ⟨ha, m, hm, rfl⟩, ?_⟩
    rw [symbol_of_input (Node.isInput_iff.mpr hin.1)]
    exact if_pos hin

theorem feeds_ok_iff {t : Option UInt64} {feeds : Option String} :
    t.mapM (Fragment.feedbackName (g.draft k).scope n) = .ok feeds ↔
      (∀ id, t = some id → g.Available k id ∧
        ∃ m, g.get? id = some m ∧ (m.kind = .input ∧ m.isRecurrent)) ∧
      (t.bind g.get?).map Node.symbol = feeds := by
  cases t with
  | none => simp [pure, Except.pure]
  | some id =>
    have hmap : (some id).mapM (Fragment.feedbackName (g.draft k).scope n) = .ok feeds ↔
        ∃ name, Fragment.feedbackName (g.draft k).scope n id = .ok name ∧ some name = feeds := by
      show (Fragment.feedbackName (g.draft k).scope n id).map some = .ok feeds ↔ _
      cases Fragment.feedbackName (g.draft k).scope n id with
      | error e => simp [Except.map]
      | ok name => simp [Except.map]
    rw [hmap]
    simp only [feedbackName_ok_iff, Option.some.injEq, forall_eq', Option.bind_some]
    refine ⟨?_, ?_⟩
    · intro h
      obtain ⟨_, ⟨ha, m, hm, hin, rfl⟩, rfl⟩ := h
      exact ⟨⟨ha, m, hm, hin⟩, by rw [hm]; rfl⟩
    · intro h
      obtain ⟨⟨ha, m, hm, hin⟩, rfl⟩ := h
      exact ⟨m.symbol, ⟨ha, m, hm, hin, rfl⟩, by rw [hm]; rfl⟩

theorem draft_outputs_any {name : String} :
    (g.draft k).scope.outputs.any (·.name == name) = true ↔
      ∃ m ∈ g.nodes.take k, m.isOutput ∧ m.signatureName = name := by
  simp [draft, List.any_map, List.any_filter, outputBinding]

/-- The operand count of an output is fixed by whether it is recurrent. -/
theorem OutputFits.operands {id : Nat} (h : g.OutputFits id n) :
    ∃ x t, n.isRecurrent = Option.isSome t ∧ n.operands = x :: t.toList := by
  have harity := h.arity
  cases hrec : n.isRecurrent with
  | false =>
    rw [hrec] at harity
    obtain ⟨x, ho⟩ := List.length_eq_one_iff.mp harity
    exact ⟨x, none, rfl, ho⟩
  | true =>
    rw [hrec] at harity
    obtain ⟨x, rest, ho⟩ := List.exists_cons_of_length_eq_add_one harity
    rw [ho] at harity
    obtain ⟨y, rfl⟩ := List.length_eq_one_iff.mp (Nat.succ.inj harity)
    exact ⟨x, some y, rfl, ho⟩

section

variable {x : UInt64} {t : Option UInt64}

theorem outputFits_iff_operands {id : Nat} (hr : n.isRecurrent = Option.isSome t)
    (ho : n.operands = x :: t.toList) :
    g.OutputFits id n ↔ n.HasFloatType ∧ n.rank ≤ 2 ∧ g.Available id x ∧
      ∀ y, t = some y → g.Available id y ∧
        ∃ m, g.get? y = some m ∧ (m.kind = .input ∧ m.isRecurrent) := by
  constructor
  · intro h
    refine ⟨h.float, h.rank, h.available x (by simp [ho]), ?_⟩
    intro y hy
    subst hy
    obtain ⟨m, hm, hin⟩ := h.feedback hr
    exact ⟨h.available y (by simp [ho]), m, by simpa [operand?, ho] using hm, hin⟩
  · intro h
    obtain ⟨hfloat, hrank, hx, hy⟩ := h
    refine ⟨?_, ?_, hfloat, hrank, ?_⟩
    · cases t <;> simp [ho, hr]
    · intro o hmem
      rw [ho, List.mem_cons, Option.mem_toList] at hmem
      rcases hmem with rfl | hmem
      · exact hx
      · exact (hy o hmem).1
    · intro hrec
      rw [hr] at hrec
      obtain ⟨y, rfl⟩ := Option.isSome_iff_exists.mp hrec
      obtain ⟨-, m, hm, hin⟩ := hy y rfl
      exact ⟨m, by simp [operand?, ho, hm], hin⟩

theorem outputBinding_of_operands (hr : n.isRecurrent = Option.isSome t)
    (ho : n.operands = x :: t.toList) :
    g.outputBinding n = {
      name := n.signatureName, uid := n.uid, value := g.symbolAt x, element := n.floatType,
      feeds := (t.bind g.get?).map Node.symbol } := by
  cases t <;> simp [outputBinding, hr, ho, operand?, symbolAt]

end

theorem fragment_output (hk : n.kind = .output) :
    g.fragment k n = { outputs := [g.outputBinding n] } := by
  simp [fragment, Node.symbol?, Node.identifiers, Node.isLeaf, NodeKind.isLeaf, Node.isInput,
    Node.isOutput, statements, hk]

theorem nameFree_output_iff (hk : n.kind = .output) :
    g.NameFree k n ↔ ¬ (g.draft k).scope.outputs.any (·.name == n.signatureName) = true := by
  rw [draft_outputs_any]
  simp [NameFree, Node.isInput, Node.isOutput, hk]

theorem ofOutput_ok_iff (hk : n.kind = .output) :
    Fragment.ofOutput (g.draft k).scope n = .ok f ↔
      (g.OutputFits k n ∧ g.NameFree k n) ∧ g.fragment k n = f := by
  rw [nameFree_output_iff hk, fragment_output hk]
  simp only [Fragment.ofOutput, ← Node.signatureName.eq_def, bind_eq_ok_iff,
    outputOperands_ok_iff]
  by_cases hany : (g.draft k).scope.outputs.any (·.name == n.signatureName) = true
  · simp only [hany, if_true, bind_eq_ok_iff, reduceCtorEq, false_and, exists_false, and_false,
      not_true_eq_false]
  · simp only [hany, if_false, bind_eq_ok_iff, pure_eq_ok_iff, Node.sourceType_ok_iff,
      Node.bufferDims_ok_iff, operand_ok_iff, feeds_ok_iff, not_false_eq_true, and_true,
      Bool.false_eq_true]
    constructor
    · intro hp
      obtain ⟨⟨x, t⟩, ⟨hr, ho⟩, _, ⟨hfl, rfl⟩, _, ⟨hrank, -⟩, _, ⟨hx, m, hm, rfl⟩, _, ⟨ht, rfl⟩,
        rfl⟩ := hp
      exact ⟨(outputFits_iff_operands hr ho).mpr ⟨hfl, hrank, hx, ht⟩,
        outputBinding_of_operands hr ho ▸ rfl⟩
    · intro hp
      obtain ⟨h, rfl⟩ := hp
      obtain ⟨x, t, hr, ho⟩ := h.operands
      obtain ⟨hfl, hrank, hx, ht⟩ := (outputFits_iff_operands hr ho).mp h
      obtain ⟨m, hm⟩ := hx.node
      exact ⟨⟨x, t⟩, ⟨hr, ho⟩, _, ⟨hfl, rfl⟩, _, ⟨hrank, rfl⟩, _, ⟨hx, m, hm, rfl⟩, _, ⟨ht, rfl⟩,
        by rw [outputBinding_of_operands hr ho]⟩

/-- The rules together: a node is taken exactly if it fits its place in the graph, and then
    gives its contribution. -/
theorem ofNode_ok_iff :
    Fragment.ofNode (g.draft k).scope (g.isShared k) n = .ok f ↔
      (g.NodeFits k n ∧ g.NameFree k n) ∧ g.fragment k n = f := by
  have hfree : n.kind ≠ .input → n.kind ≠ .output → g.NameFree k n := by
    intro hi ho
    simp [NameFree, Node.isInput, Node.isOutput, hi, ho]
  unfold Fragment.ofNode NodeFits
  cases hk : n.kind with
  | parameter =>
    rw [Node.ofLeaf_ok_iff g k (Node.isLeaf_iff.mpr (.inl hk))]
    simp [hfree, hk]
  | constant =>
    rw [Node.ofLeaf_ok_iff g k (Node.isLeaf_iff.mpr (.inr hk))]
    simp [hfree, hk]
  | input => exact ofInput_ok_iff hk
  | output => exact ofOutput_ok_iff hk
  | operator name a =>
    simp only [ofOperator_ok_iff hk, hfree (by simp [hk]) (by simp [hk]), and_true]
  | quantizeMarker =>
    simp only [ofMarker_ok_iff hk, hfree (by simp [hk]) (by simp [hk]), and_true]

end Graph

end EvaluatorGen
