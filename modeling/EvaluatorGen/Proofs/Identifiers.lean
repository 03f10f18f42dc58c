import EvaluatorGen.Proofs.Signature
import Mathlib.Data.List.Perm.Basic

/-!
The identifiers of a class.

1. `Identifier.isWord_ofText`: whatever the text, its identifier has the form
   `[A-Za-z_][A-Za-z0-9_]*`, and so have the names that are derived from it.
2. `Plan.identifiers` lists what the class declares or always uses, read off the plan.
   `identifiers_perm`: these are the identifiers that lowering keeps, and the names of the
   immediate outputs.
3. `declared_once`: so no identifier is declared twice, and no two nodes share a symbol at any
   point of the walk.
-/
namespace EvaluatorGen

namespace Identifier

/-! ### The form of an identifier -/

/-- The characters that an identifier may start with. -/
def isHeadChar (c : Char) : Bool := c.isAlpha || c == '_'

/-- Text of the form `[A-Za-z_][A-Za-z0-9_]*`. -/
def isWord (s : String) : Bool :=
  match s.toList with
  | [] => false
  | c :: cs => isHeadChar c && cs.all isWordChar

theorem isWord_iff {s : String} :
    isWord s ↔ ∃ c cs, s.toList = c :: cs ∧ isHeadChar c ∧ ∀ d ∈ cs, isWordChar d := by
  unfold isWord
  cases s.toList <;> simp

/-- Only a digit may stand in a word but not start it. -/
theorem isWordChar_iff {c : Char} : isWordChar c ↔ isHeadChar c ∨ c.isDigit := by
  show ((c.isAlpha || c.isDigit) || c == '_') = true ↔ (c.isAlpha || c == '_') = true ∨ _
  rw [Bool.or_eq_true, Bool.or_eq_true, Bool.or_eq_true, or_right_comm]

theorem wordChar_of_isWord {s : String} (h : isWord s) : ∀ c ∈ s.toList, isWordChar c := by
  obtain ⟨c, cs, hs, hc, hcs⟩ := isWord_iff.mp h
  rw [hs, List.forall_mem_cons]
  exact ⟨isWordChar_iff.mpr (.inl hc), hcs⟩

theorem isWord_append {p s : String} (hp : isWord p) (hs : ∀ c ∈ s.toList, isWordChar c) :
    isWord (p ++ s) := by
  obtain ⟨c, cs, hpc, hc, hcs⟩ := isWord_iff.mp hp
  refine isWord_iff.mpr ⟨c, cs ++ s.toList, ?_, hc, ?_⟩
  · rw [String.toList_append, hpc, List.cons_append]
  · intro d hd
    rcases List.mem_append.mp hd with hd | hd
    · exact hcs d hd
    · exact hs d hd

theorem isWord_ofText (raw : String) : isWord (ofText raw) := by
  have hmap : ∀ c ∈ raw.toList.map (fun c => if isWordChar c then c else '_'),
      isWordChar c := by
    intro c hc
    obtain ⟨d, -, rfl⟩ := List.mem_map.mp hc
    split
    · assumption
    · rfl
  rw [ofText]
  split
  · rfl
  · rename_i c cs heq
    rw [heq, List.forall_mem_cons] at hmap
    apply isWord_iff.mpr
    cases hd : c.isDigit with
    | true => exact ⟨'_', c :: cs, by simp, rfl, List.forall_mem_cons.mpr hmap⟩
    | false =>
      have hc : isHeadChar c := (isWordChar_iff.mp hmap.1).resolve_right (by simp [hd])
      exact ⟨c, cs, by simp, hc, hmap.2⟩

theorem isUpper_iff {c : Char} : c.isUpper ↔ 65 ≤ c.toNat ∧ c.toNat ≤ 90 := decide_eq_true_iff

theorem isLower_iff {c : Char} : c.isLower ↔ 97 ≤ c.toNat ∧ c.toNat ≤ 122 := by
  show (decide (97 ≤ c.toNat) && decide (c.toNat ≤ 122)) = true ↔ _
  rw [Bool.and_eq_true, decide_eq_true_iff, decide_eq_true_iff]

theorem toNat_toLower {c : Char} (h : c.isUpper) : c.toLower.toNat = c.toNat + 32 := by
  have hlower : c.toLower = ⟨c.val + 32, _⟩ := dif_pos (decide_eq_true_iff.mp h)
  have hle : c.val.toNat ≤ 90 := (isUpper_iff.mp h).2
  have hval : c.toLower.toNat = (c.val + 32).toNat := by
    rw [hlower]
    rfl
  rw [hval, UInt32.toNat_add]
  exact Nat.mod_eq_of_lt (show c.val.toNat + 32 < _ by omega)

theorem isWordChar_toLower {c : Char} (h : isWordChar c) : isWordChar c.toLower := by
  cases hu : c.isUpper with
  | true =>
    have hl : c.toLower.isLower := by
      have hrange := isUpper_iff.mp hu
      rw [isLower_iff, toNat_toLower hu]
      omega
    have ha : c.toLower.isAlpha := Bool.or_eq_true_iff.mpr (.inr hl)
    exact isWordChar_iff.mpr (.inl (Bool.or_eq_true_iff.mpr (.inl ha)))
  | false =>
    have hc : c.toLower = c := dif_neg (of_decide_eq_false hu)
    rw [hc]
    exact h

theorem wordChar_lowercase {s : String} (h : isWord s) :
    ∀ c ∈ (lowercase s).toList, isWordChar c := by
  intro c hc
  rw [lowercase, String.toList_ofList] at hc
  obtain ⟨d, hd, rfl⟩ := List.mem_map.mp hc
  exact isWordChar_toLower (wordChar_of_isWord h d hd)

end Identifier

namespace Node

variable {n : Node}

theorem isWord_signatureName : Identifier.isWord n.signatureName := Identifier.isWord_ofText _

theorem isWord_symbol : Identifier.isWord n.symbol := by
  unfold symbol
  split
  · exact isWord_signatureName
  · exact Identifier.isWord_ofText _

theorem isWord_identifiers : ∀ x ∈ n.identifiers, Identifier.isWord x := by
  have hs : Identifier.isWord n.symbol := isWord_symbol
  have hplain : ∀ p, Identifier.isWord p → Identifier.isWord (p ++ n.symbol) := fun p hp =>
    Identifier.isWord_append hp (Identifier.wordChar_of_isWord hs)
  have hlower : ∀ p, Identifier.isWord p →
      Identifier.isWord (p ++ Identifier.lowercase n.symbol) := fun p hp =>
    Identifier.isWord_append hp (Identifier.wordChar_lowercase hs)
  have hleaf : n.isLeaf → ∀ x ∈ n.identifiers, Identifier.isWord x := by
    intro hl
    rw [identifiers_leaf hl, List.forall_mem_append]
    simp only [List.forall_mem_cons]
    refine ⟨⟨hs, hplain "b_" rfl, hplain "m_" rfl, hlower "get_" rfl, hlower "set_" rfl, nofun⟩,
      ?_⟩
    split
    · simp only [List.forall_mem_cons]
      exact ⟨hplain "f_" rfl, hplain "f_step_" rfl, hplain "m_step_" rfl, nofun⟩
    · nofun
  cases hk : n.kind with
  | parameter => exact hleaf (isLeaf_iff.mpr (.inl hk))
  | constant => exact hleaf (isLeaf_iff.mpr (.inr hk))
  | input =>
    rw [identifiers, hk, List.forall_mem_cons]
    refine ⟨hs, ?_⟩
    split
    · simp only [List.forall_mem_cons]
      exact ⟨hplain "m_buffer" rfl, hplain "m_" rfl, nofun⟩
    · nofun
  | operator name a => simp [identifiers, hk, hs]
  | quantizeMarker => simp [identifiers, hk, hs]
  | output => simp [identifiers, hk]

end Node

/-- The symbol that a draft has for the node at a position. -/
def Draft.symbol? (d : Draft) (id : Nat) : Option String :=
  d.scope.lowered[id]?.bind Lowered.symbol

/-! ### What the class declares -/

/-- The name that a statement declares. -/
def Stmt.declared? : Stmt → Option String
  | .bufferView name _ _ _ _ => some name
  | .func name _ => some name
  | .funcPair name _ _ => some name
  | .funcGroup name _ => some name
  | .computeRoot _ => none

/-- The members and accessors of a leaf. -/
def LeafValue.identifiers (v : LeafValue) : List String :=
  [Identifier.storage v.symbol, Identifier.getter v.symbol, Identifier.setter v.symbol] ++
  match v.storage with
  | .plain => []
  | .quantized _ _ => [Identifier.step v.symbol]

/-- The identifiers that the class of a plan declares or always uses. -/
def Plan.identifiers (p : Plan) : List String :=
  Identifier.fixed ++
  p.inputs.map InputBinding.name ++
  p.body.filterMap Stmt.declared? ++
  p.values.flatMap LeafValue.identifiers ++
  p.recurrentInputs.flatMap
    (fun r => [Identifier.history r.1.name, Identifier.historyParam r.1.name]) ++
  p.immediateOutputs.map OutputBinding.name

namespace Node

/-- The names that the pipeline declares for a node, in the order of its statements. -/
def declared (n : Node) : List String :=
  match n.kind with
  | .parameter | .constant =>
    Identifier.buffer n.symbol ::
    if n.isQuantized then
      [Identifier.viewStage n.symbol, Identifier.stepStage n.symbol, n.symbol]
    else [n.symbol]
  | .operator _ _ | .quantizeMarker => [n.symbol]
  | .input | .output => []

/-- The members for the history of a recurrent input. -/
def histories (n : Node) : List String :=
  if n.isRecurrent then [Identifier.history n.symbol, Identifier.historyParam n.symbol] else []

theorem leafValue_identifiers (n : Node) :
    n.leafValue.identifiers =
      [Identifier.storage n.symbol, Identifier.getter n.symbol, Identifier.setter n.symbol] ++
      if n.isQuantized then [Identifier.step n.symbol] else [] := by
  unfold LeafValue.identifiers leafValue isQuantized
  cases n.quantization <;> rfl

theorem leaf_identifiers_perm {n : Node} (h : n.isLeaf) :
    n.identifiers.Perm (n.declared ++ n.leafValue.identifiers) := by
  have hd : n.declared = Identifier.buffer n.symbol ::
      if n.isQuantized then
        [Identifier.viewStage n.symbol, Identifier.stepStage n.symbol, n.symbol]
      else [n.symbol] := by
    rcases isLeaf_iff.mp h with hk | hk <;> simp [declared, hk]
  rw [identifiers_leaf h, hd, leafValue_identifiers]
  -- The same names in another order, so each is counted.
  apply List.perm_iff_count.mpr
  intro x
  cases n.isQuantized with
  | false =>
    simp only [Bool.false_eq_true, if_false, List.count_append, List.count_cons, List.count_nil]
    omega
  | true =>
    simp only [if_true, List.count_append, List.count_cons, List.count_nil]
    omega

/-- The identifiers of a node, by the place in the class where they stand. -/
theorem identifiers_perm (n : Node) :
    n.identifiers.Perm ((if n.isInput then [n.symbol] else []) ++ n.declared ++
      (if n.isLeaf then n.leafValue.identifiers else []) ++
      (if n.isInput then n.histories else [])) := by
  cases hl : n.isLeaf with
  | true =>
    have hi : n.isInput = false := by
      rcases isLeaf_iff.mp hl with hk | hk <;> simp [isInput, hk]
    simpa [hi] using leaf_identifiers_perm hl
  | false =>
    cases hk : n.kind with
    | parameter | constant => simp [isLeaf, NodeKind.isLeaf, hk] at hl
    | input => simp [identifiers, declared, histories, isInput, hk]
    | operator name a => simp [identifiers, declared, isInput, hk]
    | quantizeMarker => simp [identifiers, declared, isInput, hk]
    | output => simp [identifiers, declared, isInput, hk]

end Node

namespace Graph

variable {g : Graph} {naming : Naming}

theorem flatMap_filter_nodes {α : Type} (p : Node → Bool) (f : Node → List α) (ns : List Node) :
    (ns.filter p).flatMap f = ns.flatMap fun n => if p n then f n else [] := by
  induction ns with
  | nil => rfl
  | cons n ns ih => cases hp : p n <;> simp [hp, ih]

theorem flatMap_zipIdx_nodes {α : Type} (f : Node → List α) (ns : List Node) :
    (ns.zipIdx.flatMap fun p => f p.1) = ns.flatMap f := by
  conv_rhs => rw [← List.zipIdx_map_fst 0 ns, List.flatMap_map]

theorem inputNames_perm :
    ((g.planOf naming).inputs.map InputBinding.name).Perm
      (g.nodes.flatMap fun n => if n.isInput then [n.symbol] else []) := by
  refine ((Draft.signatureOrder_perm _).map _).trans ?_
  rw [← flatMap_filter_nodes, List.map_map, List.map_eq_flatMap]
  exact .refl _

theorem leafNames_eq :
    (g.planOf naming).values.flatMap LeafValue.identifiers =
      g.nodes.flatMap fun n => if n.isLeaf then n.leafValue.identifiers else [] := by
  rw [← flatMap_filter_nodes, planOf, leaves, List.flatMap_map]

theorem historyNames_perm :
    ((g.planOf naming).recurrentInputs.flatMap
      fun r => [Identifier.history r.1.name, Identifier.historyParam r.1.name]).Perm
      (g.nodes.flatMap fun n => if n.isInput then n.histories else []) := by
  refine (((Draft.signatureOrder_perm _).filterMap _).flatMap_right _).trans ?_
  rw [← flatMap_filter_nodes, List.filterMap_map, List.filterMap_eq_flatMap_toList,
    List.flatMap_assoc]
  apply List.Perm.of_eq
  apply List.flatMap_congr
  intro n _
  cases hr : n.recurrenceOffset <;>
    simp [Node.inputBinding, Node.histories, Node.isRecurrent, hr]

theorem declared_statements {id : Nat} {n : Node} (h : g.NodeFits id n) :
    (g.statements id n).filterMap Stmt.declared? = n.declared := by
  cases hk : n.kind with
  | parameter | constant =>
    simp only [statements, Node.declared, Node.leafStatements, hk]
    cases n.isQuantized <;> rfl
  | input | output => simp [statements, Node.declared, hk]
  | operator name a =>
    obtain ⟨c, hc⟩ := Node.IsCall.callee (.inl ⟨name, a, hk⟩) h
    simp only [statements, Node.declared, hk, hc]
    cases n.isArithmetic && g.isShared id <;> rfl
  | quantizeMarker =>
    obtain ⟨c, hc⟩ := Node.IsCall.callee (.inr hk) h
    simp [statements, Node.declared, hk, hc, Stmt.declared?]

theorem bodyNames_eq (h : g.Acceptable) :
    (g.planOf naming).body.filterMap Stmt.declared? = g.nodes.flatMap Node.declared := by
  calc
    (g.planOf naming).body.filterMap Stmt.declared?
    _ = g.nodes.zipIdx.flatMap fun p => (g.statements p.2 p.1).filterMap Stmt.declared? := by
      rw [planOf, List.filterMap_flatMap]
    _ = g.nodes.zipIdx.flatMap fun p => p.1.declared := by
      apply List.flatMap_congr
      intro p hp
      exact declared_statements (h.nodes p.2 p.1 (List.mk_mem_zipIdx_iff_getElem?.mp hp))
    _ = g.nodes.flatMap Node.declared := by
      rw [← List.flatMap_map, List.zipIdx_map_fst]

/-- The names of the immediate outputs. -/
def immediateNames (g : Graph) : List String :=
  ((g.nodes.filter Node.isOutput).filter (!·.isRecurrent)).map Node.signatureName

theorem immediateNames_perm (h : g.Acceptable) :
    ((g.planOf naming).immediateOutputs.map OutputBinding.name).Perm g.immediateNames := by
  refine (((Draft.signatureOrder_perm _).filter _).map _).trans ?_
  rw [List.filter_map, List.map_map]
  apply List.Perm.of_eq
  apply congrArg (List.map Node.signatureName)
  apply List.filter_congr
  intro n hn
  obtain ⟨hn, ho⟩ := List.mem_filter.mp hn
  obtain ⟨id, hfit⟩ := (prefixFits_of_acceptable h).output hn ho
  rw [Bool.eq_iff_iff, Function.comp_apply, Option.isNone_iff_eq_none,
    outputBinding_feeds_eq_none hfit, Bool.not_eq_true']

/-- The identifiers of the plan are those that lowering keeps, and the names of the immediate
    outputs. -/
theorem planOf_identifiers_perm (h : g.Acceptable) :
    (g.planOf naming).identifiers.Perm (g.reserved ++ g.immediateNames) := by
  have hnodes : ((g.planOf naming).inputs.map InputBinding.name ++
      (g.planOf naming).body.filterMap Stmt.declared? ++
      (g.planOf naming).values.flatMap LeafValue.identifiers ++
      (g.planOf naming).recurrentInputs.flatMap
        fun r => [Identifier.history r.1.name, Identifier.historyParam r.1.name]).Perm
      (g.nodes.flatMap Node.identifiers) := by
    rw [bodyNames_eq h, leafNames_eq]
    -- Four lists over all nodes are one list over all nodes, with four parts for each.
    refine (((inputNames_perm.append_right _).append_right _).append historyNames_perm).trans ?_
    refine (((List.flatMap_append_perm _ _ _).append_right _).append_right _).trans ?_
    refine ((List.flatMap_append_perm _ _ _).append_right _).trans ?_
    refine (List.flatMap_append_perm _ _ _).trans ?_
    exact List.Perm.flatMap_left _ fun n _ => n.identifiers_perm.symm
  have hall := (hnodes.append_left Identifier.fixed).append (@immediateNames_perm g naming h)
  simpa only [Plan.identifiers, reserved, List.append_assoc] using hall

theorem identifiers_nodup (h : g.Acceptable) : (g.reserved ++ g.immediateNames).Nodup := by
  refine List.nodup_append'.mpr ⟨h.identifiers, ?_, ?_⟩
  · exact h.outputNames.sublist (List.filter_sublist.map _)
  · intro x hx hx'
    obtain ⟨n, hn, rfl⟩ := List.mem_map.mp hx'
    obtain ⟨hn, hr⟩ := List.mem_filter.mp hn
    obtain ⟨hn, ho⟩ := List.mem_filter.mp hn
    exact h.outputsFree n hn ho (by simpa using hr) hx

/-- A name that each node of a kind claims is claimed by one of them only. -/
theorem claimed_nodup (h : g.Acceptable) (p : Node → Bool) (f : Node → String)
    (hf : ∀ n, p n → f n ∈ n.identifiers) : ((g.nodes.filter p).map f).Nodup := by
  have hids : (g.nodes.flatMap Node.identifiers).Nodup := (List.nodup_append.mp h.identifiers).2.1
  refine hids.sublist ?_
  rw [List.map_eq_flatMap, flatMap_filter_nodes]
  generalize g.nodes = ns
  induction ns with
  | nil => exact List.Sublist.refl _
  | cons n ns ih =>
    rw [List.flatMap_cons, List.flatMap_cons]
    refine List.Sublist.append ?_ ih
    split
    · rename_i hp
      exact List.singleton_sublist.mpr (hf n hp)
    · exact List.nil_sublist _

theorem inputSymbols_nodup (h : g.Acceptable) :
    ((g.nodes.filter Node.isInput).map Node.symbol).Nodup :=
  claimed_nodup h _ _ fun _ hi => symbol_mem_identifiers (Node.not_output_of_input hi)

theorem setters_nodup (h : g.Acceptable) :
    (g.leaves.map fun n => Identifier.setter n.symbol).Nodup := by
  apply claimed_nodup h
  intro n hl
  rw [Node.identifiers_leaf hl]
  simp

/-- The setter of a leaf is made from its uid alone, so the uids differ as well. -/
theorem leafUids_nodup (h : g.Acceptable) : (g.leaves.map Node.uid).Nodup := by
  have hsymbol : ∀ n ∈ g.leaves, Identifier.setter n.symbol =
      Identifier.setter (Identifier.ofText n.uid) := by
    intro n hn
    have hk : n.kind ≠ .input := by
      rcases Node.isLeaf_iff.mp (List.mem_filter.mp hn).2 with hk | hk <;> simp [hk]
    rw [Node.symbol_of_not_input hk]
  have hsetters := setters_nodup h
  rw [List.map_congr_left hsymbol] at hsetters
  refine List.Nodup.of_map (fun uid => Identifier.setter (Identifier.ofText uid)) ?_
  rw [List.map_map]
  exact hsetters

theorem isWord_identifiers : ∀ x ∈ g.reserved ++ g.immediateNames, Identifier.isWord x := by
  have hfixed : ∀ x ∈ Identifier.fixed, Identifier.isWord x := by decide +kernel
  intro x hx
  simp only [reserved, immediateNames, List.mem_append, List.mem_flatMap, List.mem_map] at hx
  rcases hx with (hx | ⟨n, -, hx⟩) | ⟨n, -, rfl⟩
  · exact hfixed x hx
  · exact n.isWord_identifiers x hx
  · exact Node.isWord_signatureName

/-! ### Symbols along the walk -/

theorem walkTo_fits {k : Nat} {d : Draft} (h : g.walkTo k = .ok d) :
    ∃ j, g.nodes.take k = g.nodes.take j ∧ g.PrefixFits j ∧ g.draft j = d := by
  have hmin : g.nodes.take k = g.nodes.take (min k g.size) := List.take_eq_take_min
  rw [walkTo, hmin] at h
  exact ⟨min k g.size, hmin, (walkTo_ok_iff (Nat.min_le_right _ _)).mp h⟩

theorem draft_symbol? (k id : Nat) :
    (g.draft k).symbol? id = (g.nodes.take k)[id]?.bind Node.symbol? := by
  rw [Draft.symbol?, draft, List.getElem?_map]
  cases (g.nodes.take k)[id]? <;> rfl

theorem symbol?_eq_some_iff {n : Node} {s : String} :
    n.symbol? = some s ↔ n.kind ≠ .output ∧ n.symbol = s := by
  unfold Node.symbol?
  split <;> simp_all

theorem declared_once (g : Graph) :
    (∀ (k : Nat) (d : Draft), g.walkTo k = .ok d →
      (∀ id, (d.symbol? id).isSome ↔
        ∃ n, (g.nodes.take k)[id]? = some n ∧ n.kind ≠ .output) ∧
      ∀ i j s, d.symbol? i = some s → d.symbol? j = some s → i = j) ∧
    ∀ (naming : Naming) (plan : Plan), g.lower naming = .ok plan →
      plan.identifiers.Nodup ∧ ∀ x ∈ plan.identifiers, Identifier.isWord x := by
  refine ⟨?_, ?_⟩
  · intro k d hd
    obtain ⟨m, hm, hfits, rfl⟩ := walkTo_fits hd
    simp only [hm, draft_symbol?]
    refine ⟨?_, ?_⟩
    · intro id
      simp [Option.isSome_iff_exists, Option.bind_eq_some_iff, symbol?_eq_some_iff]
    · intro i j s hi hj
      obtain ⟨n, hn, hs⟩ := Option.bind_eq_some_iff.mp hi
      obtain ⟨n', hn', hs'⟩ := Option.bind_eq_some_iff.mp hj
      obtain ⟨ho, rfl⟩ := symbol?_eq_some_iff.mp hs
      obtain ⟨ho', heq⟩ := symbol?_eq_some_iff.mp hs'
      -- The nodes before `m` are a graph of their own.
      exact @symbol_injective ⟨g.nodes.take m⟩ hfits.identifiers i j n n' hn hn' ho ho' heq.symm
  · intro naming plan hplan
    obtain ⟨hacc, rfl⟩ := lower_eq_ok_iff.mp hplan
    have hperm := @planOf_identifiers_perm g naming hacc
    refine ⟨hperm.nodup_iff.mpr (identifiers_nodup hacc), ?_⟩
    intro x hx
    exact isWord_identifiers x (hperm.mem_iff.mp hx)

theorem runningSum_declared_once :
    runningSum.walkTo 5 = .ok (runningSum.draft 5) ∧
    (∀ i j s, (runningSum.draft 5).symbol? i = some s →
      (runningSum.draft 5).symbol? j = some s → i = j) ∧
    runningSum.lower {} = .ok (runningSum.planOf {}) ∧
    (runningSum.planOf {}).identifiers.Nodup := by
  have hwalk : runningSum.walkTo 5 = .ok (runningSum.draft 5) := by decide +kernel
  have h := declared_once runningSum
  exact ⟨hwalk, (h.1 5 _ hwalk).2, runningSum_lower, (h.2 {} _ runningSum_lower).1⟩

end Graph

end EvaluatorGen
