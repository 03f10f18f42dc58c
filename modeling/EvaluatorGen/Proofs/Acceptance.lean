import EvaluatorGen.Proofs.Lowering.Walk

/-!
When lowering succeeds, and the plan that it gives.

1. `owner_unique`: with distinct identifiers, each belongs to one position of the graph.
2. `feeders_eq_countP`: the final check counts the outputs that are fed back to the *name* of
   an input; that is the number of outputs whose second operand is the input itself.
3. `lower_eq_ok_iff`: lowering succeeds exactly on the acceptable graphs, with the plan
   `Graph.planOf`.
4. `lower_succeeds_iff_acceptable`: so acceptance is one condition on the graph, free of the
   order of checks and of the names that are given to the class.
-/
namespace EvaluatorGen

/-! ### Final checks -/

namespace Draft

/-- A check that refuses the first bad entry passes if there is none. -/
theorem ok_iff_of_find {α : Type} (entries : List α) (bad : α → Bool)
    {check : Except CompileError Unit} {u : Unit}
    (hsome : ∀ x, entries.find? bad = some x → check ≠ .ok u)
    (hnone : entries.find? bad = none → check = .ok u) :
    check = .ok u ↔ ∀ x ∈ entries, bad x = false := by
  cases h : entries.find? bad with
  | none => simpa [hnone h] using h
  | some x =>
    have hx := List.find?_some h
    have hm := List.mem_of_find?_eq_some h
    refine ⟨fun hok => absurd hok (hsome x h), fun hall => ?_⟩
    rw [hall x hm] at hx
    cases hx

theorem checkFeedback_ok_iff {s : Scope} {u : Unit} :
    checkFeedback s = .ok u ↔
      ∀ i ∈ s.inputs, i.recurrence.isSome → feeders s.outputs i.name = 1 := by
  rw [ok_iff_of_find s.inputs
    (fun i => i.recurrence.isSome && feeders s.outputs i.name != 1)]
  · simp
  · intro i hi
    simp [checkFeedback, hi]
  · intro hi
    simp [checkFeedback, hi]

theorem checkOutputNames_ok_iff {s : Scope} {u : Unit} :
    checkOutputNames s = .ok u ↔ ∀ o ∈ s.outputs, ∀ i ∈ s.inputs, i.name ≠ o.name := by
  rw [ok_iff_of_find s.outputs (fun o => s.inputs.any (·.name == o.name))]
  · simp
  · intro o ho
    simp [checkOutputNames, ho]
  · intro ho
    simp [checkOutputNames, ho]

theorem checkOutputSymbols_ok_iff {d : Draft} {u : Unit} :
    checkOutputSymbols d = .ok u ↔
      ∀ o ∈ d.scope.outputs, o.feeds = none → o.name ∉ d.reserved := by
  rw [ok_iff_of_find d.scope.outputs (fun o => o.feeds.isNone && decide (o.name ∈ d.reserved))]
  · simp
  · intro o ho
    simp [checkOutputSymbols, ho]
  · intro ho
    simp [checkOutputSymbols, ho]

/-- What is asked of a draft when all nodes are visited. -/
structure Passes (d : Draft) : Prop where
  fed : ∀ i ∈ d.scope.inputs, i.recurrence.isSome → feeders d.scope.outputs i.name = 1
  apart : ∀ o ∈ d.scope.outputs, ∀ i ∈ d.scope.inputs, i.name ≠ o.name
  free : ∀ o ∈ d.scope.outputs, o.feeds = none → o.name ∉ d.reserved

theorem finish_ok_iff {d : Draft} {naming : Naming} {plan : Plan} :
    d.finish naming = .ok plan ↔
      d.Passes ∧ ({
        enclosing := naming.enclosing
        className := naming.className
        values := d.values
        inputs := signatureOrder InputBinding.name (·.recurrence.isSome) d.scope.inputs
        outputs := signatureOrder OutputBinding.name (·.feeds.isSome) d.scope.outputs
        body := d.body } : Plan) = plan := by
  unfold finish
  simp only [bind_eq_ok_iff, pure_eq_ok_iff, checkFeedback_ok_iff, checkOutputNames_ok_iff,
    checkOutputSymbols_ok_iff]
  refine ⟨?_, ?_⟩
  · intro h
    obtain ⟨_, hf, _, hn, _, hs, hp⟩ := h
    exact ⟨⟨hf, hn, hs⟩, hp⟩
  · intro h
    obtain ⟨⟨hf, hn, hs⟩, hp⟩ := h
    exact ⟨(), hf, (), hn, (), hs, hp⟩

end Draft

namespace Graph

variable {g : Graph}

theorem reservedTo_size : g.reservedTo g.size = g.reserved := by
  rw [reservedTo, reserved, size, List.take_length]

theorem draft_finish {naming : Naming} {plan : Plan} :
    (g.draft g.size).finish naming = .ok plan ↔
      (g.draft g.size).Passes ∧ g.planOf naming = plan := by
  rw [Draft.finish_ok_iff]
  simp only [planOf, draft, leaves, size, List.take_length]

/-! ### Identifiers and their nodes -/

theorem owner_unique (h : g.reserved.Nodup) {i j : Nat} {n m : Node} (hi : g.nodes[i]? = some n)
    (hj : g.nodes[j]? = some m) {x : String} (hn : x ∈ n.identifiers) (hm : x ∈ m.identifiers) :
    i = j := by
  have hp := (List.nodup_flatMap.mp (List.nodup_append.mp h).2.1).2
  obtain ⟨hi', rfl⟩ := List.getElem?_eq_some_iff.mp hi
  obtain ⟨hj', rfl⟩ := List.getElem?_eq_some_iff.mp hj
  rw [List.pairwise_iff_getElem] at hp
  rcases Nat.lt_trichotomy i j with hlt | heq | hlt
  · exact absurd hm (hp i j hi' hj' hlt hn)
  · exact heq
  · exact absurd hn (hp j i hj' hi' hlt hm)

theorem symbol_injective (h : g.reserved.Nodup) {i j : Nat} {n m : Node}
    (hi : g.nodes[i]? = some n) (hj : g.nodes[j]? = some m) (hn : n.kind ≠ .output)
    (hm : m.kind ≠ .output) (heq : n.symbol = m.symbol) : i = j :=
  owner_unique h hi hj (symbol_mem_identifiers hn) (heq ▸ symbol_mem_identifiers hm)

/-! ### Feedback by name and by edge -/

theorem outputBinding_feeds_iff (h : g.reserved.Nodup) {j id : Nat} {m n : Node}
    (hm : g.OutputFits j m) (hn : g.nodes[id]? = some n) (hi : n.kind = .input) :
    (g.outputBinding m).feeds = some n.symbol ↔
      m.isRecurrent ∧ m.operands[1]?.map UInt64.toNat = some id := by
  unfold outputBinding
  cases hr : m.isRecurrent with
  | false => simp
  | true =>
    obtain ⟨target, ht, hin, -⟩ := hm.feedback hr
    obtain ⟨o, ho, hto⟩ := Option.bind_eq_some_iff.mp ht
    simp only [if_true, ht, ho, Option.map_some, Option.some.injEq, true_and]
    refine ⟨?_, ?_⟩
    · -- Two inputs of one name would be one node.
      intro heq
      exact symbol_injective h hto hn (by simp [hin]) (by simp [hi]) heq
    · intro hx
      subst hx
      rw [get?, hn] at hto
      cases hto
      rfl

theorem feeders_eq_countP (h : g.PrefixFits g.size) {id : Nat} {n : Node}
    (hn : g.nodes[id]? = some n) (hi : n.kind = .input) :
    Draft.feeders (g.draft g.size).scope.outputs n.symbol = g.nodes.countP (·.feeds id) := by
  have hr : g.reserved.Nodup := by
    rw [← reservedTo_size]
    exact h.identifiers
  -- Both sides count output nodes, so it is enough to compare what they ask of one node.
  simp only [Draft.feeders, draft, size, List.take_length, List.countP_map, List.countP_filter]
  apply List.countP_congr
  intro m hm
  obtain ⟨j, hj⟩ := List.mem_iff_getElem?.mp hm
  simp only [Function.comp_apply, Bool.and_eq_true, beq_iff_eq, Node.feeds]
  by_cases ho : m.isOutput
  · have hk := Node.isOutput_iff.mp ho
    have hfit := h.nodes j m (List.getElem?_eq_some_iff.mp hj).1 hj
    rw [NodeFits, hk] at hfit
    rw [outputBinding_feeds_iff hr hfit hn hi]
    simp [ho]
  · simp [ho]

/-! ### Acceptance -/

theorem mem_draft_inputs {i : InputBinding} :
    i ∈ (g.draft g.size).scope.inputs ↔ ∃ n ∈ g.nodes, n.isInput ∧ n.inputBinding = i := by
  simp [draft, size, and_assoc]

theorem mem_draft_outputs {o : OutputBinding} :
    o ∈ (g.draft g.size).scope.outputs ↔ ∃ n ∈ g.nodes, n.isOutput ∧ g.outputBinding n = o := by
  simp [draft, size, and_assoc]

/-- An output that fits is immediate exactly if it feeds nothing. -/
theorem outputBinding_feeds_eq_none {id : Nat} {n : Node} (h : g.OutputFits id n) :
    (g.outputBinding n).feeds = none ↔ n.isRecurrent = false := by
  unfold outputBinding
  cases hr : n.isRecurrent with
  | false => simp
  | true =>
    obtain ⟨target, ht, -⟩ := h.feedback hr
    simp [ht]

theorem PrefixFits.output (h : g.PrefixFits g.size) {n : Node} (hn : n ∈ g.nodes)
    (ho : n.isOutput) : ∃ id, g.OutputFits id n := by
  obtain ⟨id, hid⟩ := List.mem_iff_getElem?.mp hn
  have hk := Node.isOutput_iff.mp ho
  have hfit := h.nodes id n (List.getElem?_eq_some_iff.mp hid).1 hid
  rw [NodeFits, hk] at hfit
  exact ⟨id, hfit⟩

theorem prefixFits_of_acceptable (h : g.Acceptable) : g.PrefixFits g.size where
  nodes id n _ hn := h.nodes id n hn
  identifiers := by
    rw [reservedTo_size]
    exact h.identifiers
  outputNames := by
    rw [size, List.take_length]
    exact h.outputNames

theorem passes_of_acceptable (h : g.Acceptable) : (g.draft g.size).Passes := by
  have hp := prefixFits_of_acceptable h
  refine ⟨?_, ?_, ?_⟩
  · intro i hi hr
    obtain ⟨n, hn, hin, rfl⟩ := mem_draft_inputs.mp hi
    obtain ⟨id, hid⟩ := List.mem_iff_getElem?.mp hn
    have hk := Node.isInput_iff.mp hin
    have hrec : n.isRecurrent := by simpa [Node.inputBinding, Node.isRecurrent] using hr
    exact (feeders_eq_countP hp hid hk).trans (h.fedOnce id n hid hin hrec)
  · intro o ho i hi heq
    obtain ⟨m, hm, hout, rfl⟩ := mem_draft_outputs.mp ho
    obtain ⟨n, hn, hin, rfl⟩ := mem_draft_inputs.mp hi
    apply h.outputsApart m hm hout n hn hin
    rw [← symbol_of_input hin]
    exact heq.symm
  · intro o ho hf
    obtain ⟨m, hm, hout, rfl⟩ := mem_draft_outputs.mp ho
    obtain ⟨id, hfit⟩ := hp.output hm hout
    have hfree := h.outputsFree m hm hout ((outputBinding_feeds_eq_none hfit).mp hf)
    rw [← reservedTo_size] at hfree
    exact hfree

theorem acceptable_of_passes (hp : g.PrefixFits g.size) (h : (g.draft g.size).Passes) :
    g.Acceptable := by
  refine ⟨?_, ?_, ?_, ?_, ?_, ?_⟩
  · intro id n hn
    exact hp.nodes id n (List.getElem?_eq_some_iff.mp hn).1 hn
  · rw [← reservedTo_size]
    exact hp.identifiers
  · have hout := hp.outputNames
    rw [size, List.take_length] at hout
    exact hout
  · intro m hm ho n hn hi heq
    refine h.apart _ (mem_draft_outputs.mpr ⟨m, hm, ho, rfl⟩) _
      (mem_draft_inputs.mpr ⟨n, hn, hi, rfl⟩) ?_
    exact (symbol_of_input hi).trans heq.symm
  · intro m hm ho hr
    obtain ⟨id, hfit⟩ := hp.output hm ho
    rw [← reservedTo_size]
    exact h.free _ (mem_draft_outputs.mpr ⟨m, hm, ho, rfl⟩)
      ((outputBinding_feeds_eq_none hfit).mpr hr)
  · intro id n hid hi hr
    have hk := Node.isInput_iff.mp hi
    rw [← feeders_eq_countP hp hid hk]
    refine h.fed n.inputBinding (mem_draft_inputs.mpr ⟨n, List.mem_of_getElem? hid, hi, rfl⟩) ?_
    simpa [Node.inputBinding, Node.isRecurrent] using hr

/-- Lowering succeeds on the acceptable graphs, with the plan that their nodes contribute to. -/
theorem lower_eq_ok_iff {naming : Naming} {plan : Plan} :
    g.lower naming = .ok plan ↔ g.Acceptable ∧ g.planOf naming = plan := by
  rw [lower, bind_eq_ok_iff, walk_eq_walkTo]
  refine ⟨?_, ?_⟩
  · intro hx
    obtain ⟨d, hd, hf⟩ := hx
    obtain ⟨hp, rfl⟩ := (walkTo_ok_iff (Nat.le_refl _)).mp hd
    obtain ⟨hpass, rfl⟩ := draft_finish.mp hf
    exact ⟨acceptable_of_passes hp hpass, rfl⟩
  · intro hx
    obtain ⟨h, rfl⟩ := hx
    refine ⟨g.draft g.size, ?_, draft_finish.mpr ⟨passes_of_acceptable h, rfl⟩⟩
    exact (walkTo_ok_iff (Nat.le_refl _)).mpr ⟨prefixFits_of_acceptable h, rfl⟩

theorem lower_succeeds_iff_acceptable (g : Graph) (naming : Naming) :
    (∃ plan, g.lower naming = .ok plan) ↔ g.Acceptable := by
  refine ⟨?_, ?_⟩
  · intro hx
    obtain ⟨plan, h⟩ := hx
    exact (lower_eq_ok_iff.mp h).1
  · intro h
    exact ⟨g.planOf naming, lower_eq_ok_iff.mpr ⟨h, rfl⟩⟩

end Graph

end EvaluatorGen
