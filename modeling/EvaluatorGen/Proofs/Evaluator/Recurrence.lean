import EvaluatorGen.Proofs.Evaluator.Step
import EvaluatorGen.Proofs.Header.Sizes

/-!
Whole runs of an evaluator.

1. `Ring` is the invariant of a run: before step `t`, a history of `n` slots holds in slot
   `s % n` what step `s` stored, for each of the last `n` steps `s`, and slots that no step has
   come to still hold what `init` left there. `ring_succ` carries it over one step.
2. `run_ok`: so every run ends well, and every recurrent input with offset `k` reads at step `t`
   what was stored at step `t - k`, or the fresh slot `t + 1` if there was no such step.
3. `run_implements_recurrence` says it of the graph, with the meaning of its nodes.
-/
namespace EvaluatorGen

/-- The one entry that satisfies `p` is what `p` keeps. -/
theorem filter_eq_singleton {α : Type} {p : α → Bool} {xs : List α} {x : α}
    (h : xs.countP p = 1) (hx : x ∈ xs) (hp : p x) : xs.filter p = [x] := by
  rw [List.countP_eq_length_filter, List.length_eq_one_iff] at h
  obtain ⟨a, ha⟩ := h
  have hmem : x ∈ xs.filter p := List.mem_filter.mpr ⟨hx, hp⟩
  rw [ha, List.mem_singleton] at hmem
  rw [ha, hmem]

namespace Plan

variable {V : Type} {R : Runtime V} {p : Plan} {fresh : String → Nat → V}
  {records : List (Record V)} {h h' : Histories V}

theorem getElem?_concat_cases {s : Nat} {record past : Record V}
    (hs : (records ++ [record])[s]? = some past) :
    records[s]? = some past ∧ s < records.length ∨ s = records.length ∧ past = record := by
  rcases Nat.lt_or_ge s records.length with hlt | hge
  · rw [List.getElem?_append_left hlt] at hs
    exact .inl ⟨hs, hlt⟩
  · rw [List.getElem?_append_right hge, List.getElem?_singleton] at hs
    split at hs
    · simp only [Option.some.injEq] at hs
      exact .inr ⟨by omega, hs.symm⟩
    · cases hs

/-! ### The start -/

theorem foldl_allocate {as : List Allocation} (hn : (as.map Allocation.history).Nodup) :
    ∀ h : Histories V,
      let h' := as.foldl
        (fun h a => h.set a.history ((List.range a.length).map (fresh a.history))) h
      (∀ a ∈ as, h' a.history = (List.range a.length).map (fresh a.history)) ∧
      ∀ x ∉ as.map Allocation.history, h' x = h x := by
  induction as with
  | nil => exact fun h => ⟨nofun, fun _ _ => rfl⟩
  | cons a as ih =>
    intro h
    rw [List.map_cons, List.nodup_cons] at hn
    obtain ⟨hin, hout⟩ := ih hn.2 (h.set a.history ((List.range a.length).map (fresh a.history)))
    refine ⟨?_, ?_⟩
    · rw [List.forall_mem_cons]
      refine ⟨?_, hin⟩
      exact (hout _ hn.1).trans (if_pos rfl)
    · intro x hx
      rw [List.map_cons, List.mem_cons, not_or] at hx
      exact (hout x hx.2).trans (if_neg hx.1)

theorem start_eq (hw : p.Wired) (fresh : String → Nat → V) {r : InputBinding × RecurrentSlot}
    (hr : r ∈ p.recurrentInputs) :
    p.evaluator.start fresh (Identifier.history r.1.name) =
      (List.range r.2.length).map (fresh (Identifier.history r.1.name)) := by
  have hn : (p.evaluator.allocations.map Allocation.history).Nodup := by
    simp only [evaluator, List.map_map]
    exact hw.histories
  exact (foldl_allocate hn _).1 ⟨_, r.2.length, r.1.element, r.2.dims⟩
    (List.mem_map_of_mem hr)

/-! ### The ring -/

/-- What the histories hold after the steps of `records`. -/
structure Ring (p : Plan) (fresh : String → Nat → V) (records : List (Record V))
    (h : Histories V) : Prop where
  fit : h.Fit p
  written : ∀ r ∈ p.recurrentInputs, ∀ (s : Nat) (past : Record V), records[s]? = some past →
    records.length ≤ s + r.2.length → ∃ o ∈ p.outputs, o.feeds = some r.1.name ∧
      ∃ v, past.env o.value = some v ∧
        (h (Identifier.history r.1.name))[s % r.2.length]? = some v
  unwritten : ∀ r ∈ p.recurrentInputs, ∀ j, records.length ≤ j → j < r.2.length →
    (h (Identifier.history r.1.name))[j]? = some (fresh (Identifier.history r.1.name) j)

theorem ring_start (hw : p.Wired) (fresh : String → Nat → V) :
    p.Ring fresh [] (p.evaluator.start fresh) := by
  refine ⟨?_, ?_, ?_⟩
  · intro r hr
    simp [start_eq hw fresh hr]
  · intro r _ s past hs
    simp at hs
  · intro r hr j _ hj
    simp [start_eq hw fresh hr, hj]

/-- The output that feeds a recurrent input. -/
theorem Wired.feeder (hw : p.Wired) {r : InputBinding × RecurrentSlot}
    (hr : r ∈ p.recurrentInputs) : ∃ o ∈ p.outputs, o.feeds = some r.1.name := by
  have hpos : 0 < p.outputs.countP (·.feeds == some r.1.name) := by
    rw [hw.fedOnce r hr]
    exact Nat.one_pos
  obtain ⟨o, ho, hf⟩ := List.countP_pos_iff.mp hpos
  exact ⟨o, ho, by simpa using hf⟩

theorem ring_succ (hw : p.Wired) (hring : p.Ring fresh records h) {immediate : String → V}
    {record : Record V} (hstep : p.StepSpec R immediate records.length h record h') :
    p.Ring fresh (records ++ [record]) h' := by
  -- Every history is written by the step, at one slot.
  have hnew : ∀ r ∈ p.recurrentInputs, ∃ o ∈ p.outputs, o.feeds = some r.1.name ∧
      ∃ v, record.env o.value = some v ∧ h' (Identifier.history r.1.name) =
        (h (Identifier.history r.1.name)).set (records.length % r.2.length) v := by
    intro r hr
    obtain ⟨o, ho, hf⟩ := hw.feeder hr
    obtain ⟨v, hv, hst⟩ := hstep.stored o ho
    rw [hf] at hst
    exact ⟨o, ho, hf, v, hv, hw.historyLength_eq hr ▸ hst⟩
  refine ⟨hstep.fit, ?_, ?_⟩
  · intro r hr s past hs hlast
    obtain ⟨o, ho, hf, v, hv, hset⟩ := hnew r hr
    rw [List.length_append, List.length_singleton] at hlast
    rcases getElem?_concat_cases hs with ⟨hs, hlt⟩ | ⟨rfl, rfl⟩
    · -- An earlier step, whose slot is not the one that is written now.
      obtain ⟨o, ho, hf, w, hw', hslot⟩ := hring.written r hr s past hs (by omega)
      refine ⟨o, ho, hf, w, hw', ?_⟩
      rw [hset, List.getElem?_set_ne (mod_ne_of_lt hlt (by omega)).symm, hslot]
    · refine ⟨o, ho, hf, v, hv, ?_⟩
      rw [hset, List.getElem?_set_self]
      rw [hring.fit r hr]
      exact Nat.mod_lt _ (Nat.succ_pos _)
  · intro r hr j hj hlen
    obtain ⟨o, -, -, v, -, hset⟩ := hnew r hr
    rw [List.length_append, List.length_singleton] at hj
    -- Before the first turn is over, the slot that is written lies below the fresh ones.
    have hne : records.length % r.2.length ≠ j := by
      rw [Nat.mod_eq_of_lt (by omega)]
      omega
    rw [hset, List.getElem?_set_ne hne]
    exact hring.unwritten r hr j (by omega) hlen

/-! ### Runs -/

/-- What the recurrent inputs read at step `t`. -/
structure Reads (p : Plan) (fresh : String → Nat → V) (records : List (Record V)) (t : Nat)
    (record : Record V) : Prop where
  delayed : ∀ r ∈ p.recurrentInputs, r.2.offset.toNat ≤ t →
    ∃ past, records[t - r.2.offset.toNat]? = some past ∧
      ∃ o ∈ p.outputs, o.feeds = some r.1.name ∧
        ∃ v, past.env o.value = some v ∧ record.inputs r.1.name = some v
  initial : ∀ r ∈ p.recurrentInputs, t < r.2.offset.toNat →
    record.inputs r.1.name = some (fresh (Identifier.history r.1.name) (t + 1))

theorem reads_of_ring (hring : p.Ring fresh records h)
    (hoffset : ∀ r ∈ p.recurrentInputs, 1 ≤ r.2.offset.toNat) {immediate : String → V}
    {record : Record V} (hstep : p.StepSpec R immediate records.length h record h') :
    p.Reads fresh records records.length record := by
  refine ⟨?_, ?_⟩
  · intro r hr hle
    have hlt : records.length - r.2.offset.toNat < records.length := by
      have := hoffset r hr
      omega
    have hpast := List.getElem?_eq_getElem hlt
    obtain ⟨o, ho, hf, v, hv, hslot⟩ := hring.written r hr _ _ hpast (by
      rw [RecurrentSlot.length]
      omega)
    refine ⟨_, hpast, o, ho, hf, v, hv, ?_⟩
    -- The step that is read from and this one are a whole turn of the ring apart, less one.
    have hturn : (records.length + 1) % r.2.length =
        (records.length - r.2.offset.toNat) % r.2.length := by
      rw [← Nat.add_mod_right (records.length - r.2.offset.toNat)]
      congr 1
      rw [RecurrentSlot.length]
      omega
    rw [hstep.read r hr, hturn, hslot]
  · intro r hr hlt
    have hin : records.length + 1 < r.2.length := by
      rw [RecurrentSlot.length]
      omega
    rw [hstep.read r hr, Nat.mod_eq_of_lt hin]
    exact hring.unwritten r hr _ (by omega) hin

theorem Reads.append {t : Nat} {record : Record V} (hreads : p.Reads fresh records t record)
    (more : List (Record V)) : p.Reads fresh (records ++ more) t record := by
  refine ⟨?_, hreads.initial⟩
  intro r hr hle
  obtain ⟨past, hpast, hrest⟩ := hreads.delayed r hr hle
  refine ⟨past, ?_, hrest⟩
  rw [List.getElem?_append_left (List.getElem?_eq_some_iff.mp hpast).1, hpast]

theorem run_ok (hw : p.Wired)
    (hbody : ∀ inputs, p.Supplies inputs → ∃ env, execAll R inputs p.body = .ok env ∧
      ∀ o ∈ p.outputs, ∃ v, env o.value = some v)
    (hoffset : ∀ r ∈ p.recurrentInputs, 1 ≤ r.2.offset.toNat) (fresh : String → Nat → V)
    (immediate : Nat → String → V) (T : Nat) :
    ∃ records h, p.evaluator.run R fresh immediate T = .ok (records, h) ∧
      records.length = T ∧ p.Ring fresh records h ∧
      ∀ (t : Nat) (record : Record V), records[t]? = some record →
        p.Reads fresh records t record ∧
        ∃ before after, p.StepSpec R (immediate t) t before record after := by
  induction T with
  | zero => exact ⟨[], _, rfl, rfl, ring_start hw fresh, by simp⟩
  | succ T ih =>
    obtain ⟨records, h, hrun, rfl, hring, hall⟩ := ih
    obtain ⟨record, h', hstep, hspec⟩ :=
      step_ok hw hbody (immediate records.length) records.length hring.fit
    refine ⟨records ++ [record], h', ?_, by simp, ring_succ hw hring hspec, ?_⟩
    · simp only [Evaluator.run, hrun, ok_bind, hstep]
      rfl
    · intro t past ht
      rcases getElem?_concat_cases ht with ⟨ht, -⟩ | ⟨rfl, rfl⟩
      · exact ⟨(hall t past ht).1.append _, (hall t past ht).2⟩
      · exact ⟨(reads_of_ring hring hoffset hspec).append _, h, h', hspec⟩

/-! ### Slots -/

theorem Wired.recurrent_unique (hw : p.Wired) {r r' : InputBinding × RecurrentSlot}
    (hr : r ∈ p.recurrentInputs) (hr' : r' ∈ p.recurrentInputs)
    (heq : Identifier.history r.1.name = Identifier.history r'.1.name) : r = r' :=
  List.inj_on_of_nodup_map hw.recurrentNames hr hr' (history_injective heq)

theorem written_slot (hw : p.Wired) {s : Slot} (hs : .slot s ∈ p.evaluator.targets) :
    ∃ r ∈ p.recurrentInputs, s = ⟨Identifier.history r.1.name, .rem .timestep r.2.length⟩ := by
  obtain ⟨o, ho, heq⟩ := List.mem_map.mp hs
  unfold target at heq
  cases hf : o.feeds with
  | none => simp [hf] at heq
  | some x =>
    obtain ⟨r, hr, rfl⟩ := hw.feeds o ho x hf
    simp only [hf, hw.historyLength_eq hr, Target.slot.injEq] at heq
    exact ⟨r, hr, heq.symm⟩

/-- A slot that a step reads or writes is in the history that `init` allocates for it. -/
theorem slot_inRange (hw : p.Wired) {a : Allocation} (ha : a ∈ p.evaluator.allocations)
    {s : Slot} (hs : s ∈ p.evaluator.slots) (heq : s.history = a.history) (t : Nat) :
    ∃ j < a.length, s.index.eval (.ok t) = .ok (j : Int) := by
  obtain ⟨r, hr, rfl⟩ := List.mem_map.mp ha
  have hlt : ∀ i, i % r.2.length < r.2.length := fun i => Nat.mod_lt i (Nat.succ_pos _)
  rcases List.mem_append.mp hs with hs | hs
  · simp only [evaluator, List.map_map, List.mem_map, Function.comp_apply] at hs
    obtain ⟨r', hr', rfl⟩ := hs
    obtain rfl := hw.recurrent_unique hr' hr heq
    exact ⟨_, hlt _, readSlot_eval t r'.1 r'.2⟩
  · obtain ⟨target, htarget, hslot⟩ := List.mem_filterMap.mp hs
    cases target with
    | parameter name => cases hslot
    | slot s' =>
      cases hslot
      obtain ⟨r', hr', rfl⟩ := written_slot hw htarget
      obtain rfl := hw.recurrent_unique hr' hr heq
      exact ⟨_, hlt _, writeIndex_eval t _⟩

/-- No step writes the slot of a history that it reads. -/
theorem slots_apart (hw : p.Wired) (hoffset : ∀ r ∈ p.recurrentInputs, 1 ≤ r.2.offset.toNat)
    {b : String × Slot} (hb : b ∈ p.evaluator.bindings) {s : Slot}
    (hs : .slot s ∈ p.evaluator.targets) (heq : s.history = b.2.history) (t : Nat) :
    s.index.eval (.ok t) ≠ b.2.index.eval (.ok t) := by
  obtain ⟨r, hr, rfl⟩ := List.mem_map.mp hb
  obtain ⟨r', hr', rfl⟩ := written_slot hw hs
  obtain rfl := hw.recurrent_unique hr' hr heq
  have hpos := hoffset r' hr'
  have hlen : r'.2.length = r'.2.offset.toNat + 1 := rfl
  have hne := mod_ne_of_lt (Nat.lt_succ_self t) (show t + 1 < t + r'.2.length by omega)
  rw [writeIndex_eval, readSlot_eval]
  intro hindex
  simp only [Except.ok.injEq, Int.natCast_inj] at hindex
  exact hne hindex

end Plan

/-! ### The recurrence of a graph -/

namespace Graph

variable {V : Type} {R : Runtime V} {g : Graph} {naming : Naming}

/-- What a run does at step `t`, said by the graph. -/
structure Implements (R : Runtime V) (g : Graph) (fresh : String → Nat → V)
    (immediate : Nat → String → V) (records : List (Record V)) (t : Nat) (record : Record V) :
    Prop where
  given : ∀ n ∈ g.nodes, n.kind = .input → n.recurrenceOffset = none →
    record.inputs n.symbol = some (immediate t n.symbol)
  /-- A recurrent input has the value that the first operand of its output had `k` steps ago. -/
  delayed : ∀ (id : Nat) (n : Node) (k : UInt64), g.nodes[id]? = some n → n.kind = .input →
    n.recurrenceOffset = some k → k.toNat ≤ t →
    ∃ m ∈ g.nodes, m.feeds id ∧ (∀ m' ∈ g.nodes, m'.feeds id → m' = m) ∧
      ∃ x v past, m.operands[0]? = some x ∧ records[t - k.toNat]? = some past ∧
        g.meaning R past.inputs x.toNat = some v ∧ record.inputs n.symbol = some v
  /-- Before there is such a step, it has what `init` left in slot `t + 1`. -/
  initial : ∀ n ∈ g.nodes, n.kind = .input → ∀ k, n.recurrenceOffset = some k → t < k.toNat →
    record.inputs n.symbol = some (fresh (Identifier.history n.symbol) (t + 1))
  computed : ∀ (id : Nat) (n : Node), g.nodes[id]? = some n → n.kind ≠ .output →
    ∃ v, g.meaning R record.inputs id = some v ∧ record.env n.symbol = some v
  emitted : ∀ n ∈ g.nodes, n.kind = .output → n.recurrenceOffset = none →
    ∃ x v, n.operands[0]? = some x ∧ g.meaning R record.inputs x.toNat = some v ∧
      record.outputs n.signatureName = some v

theorem body_ok (h : g.Acceptable) (inputs : Env V)
    (hsupplies : (g.planOf naming).Supplies inputs) :
    ∃ env, execAll R inputs (g.planOf naming).body = .ok env ∧
      ∀ o ∈ (g.planOf naming).outputs, ∃ v, env o.value = some v := by
  obtain ⟨env, hexec, hmeant⟩ := exec_body (R := R) h (bindsInputs_iff.mpr hsupplies) naming
  refine ⟨env, hexec, ?_⟩
  intro o ho
  obtain ⟨n, hn, hout, rfl⟩ := mem_planOf_outputs.mp ho
  obtain ⟨x, v, -, -, hv⟩ := output_meant h hmeant hn hout
  exact ⟨v, hv⟩

theorem step_meant (h : g.Acceptable) {immediate : String → V} {t : Nat}
    {before after : Histories V} {record : Record V}
    (hstep : (g.planOf naming).StepSpec R immediate t before record after) :
    ∀ (id : Nat) (n : Node), g.nodes[id]? = some n → n.kind ≠ .output →
      ∃ v, g.meaning R record.inputs id = some v ∧ record.env n.symbol = some v := by
  obtain ⟨env, hexec, hmeant⟩ := exec_body (R := R) h (bindsInputs_iff.mpr hstep.supplied) naming
  rw [hstep.executed] at hexec
  cases hexec
  exact hmeant

theorem mem_recurrentInputs_of_node {n : Node} {k : UInt64} (hn : n ∈ g.nodes)
    (hi : n.kind = .input) (hk : n.recurrenceOffset = some k) :
    (n.inputBinding, ⟨k, n.sizes.reverse⟩) ∈ (g.planOf naming).recurrentInputs := by
  refine mem_planOf_recurrentInputs.mpr ⟨n, hn, Node.isInput_iff.mpr hi, rfl, ?_⟩
  simp [Node.inputBinding, hk]

theorem offset_of_recurrentInput {r : InputBinding × RecurrentSlot}
    (hr : r ∈ (g.planOf naming).recurrentInputs) :
    ∃ n ∈ g.nodes, n.kind = .input ∧ n.recurrenceOffset = some r.2.offset := by
  obtain ⟨n, hn, hi, -, hs⟩ := mem_planOf_recurrentInputs.mp hr
  refine ⟨n, hn, Node.isInput_iff.mp hi, ?_⟩
  obtain ⟨k, hk, heq⟩ := Option.map_eq_some_iff.mp hs
  rw [hk, ← heq]

theorem Acceptable.feeder_unique (h : g.Acceptable) {id : Nat} {n m m' : Node}
    (hid : g.nodes[id]? = some n) (hi : n.isInput) (hr : n.isRecurrent) (hm : m ∈ g.nodes)
    (hm' : m' ∈ g.nodes) (hf : m.feeds id) (hf' : m'.feeds id) : m' = m := by
  have hone := h.fedOnce id n hid hi hr
  have hfilter := (filter_eq_singleton hone hm' hf').symm.trans (filter_eq_singleton hone hm hf)
  exact List.singleton_inj.mp hfilter

/-- The output that is fed back to the name of an input has the input as its second operand. -/
theorem feeder_of_binding (h : g.Acceptable) {id : Nat} {n : Node} {o : OutputBinding}
    (hid : g.nodes[id]? = some n) (hi : n.kind = .input)
    (ho : o ∈ (g.planOf naming).outputs) (hf : o.feeds = some n.symbol) :
    ∃ m ∈ g.nodes, m.isOutput ∧ m.feeds id ∧ g.outputBinding m = o := by
  obtain ⟨m, hm, hout, rfl⟩ := mem_planOf_outputs.mp ho
  obtain ⟨j, hfit⟩ := (prefixFits_of_acceptable h).output hm hout
  obtain ⟨hr, hop⟩ := (outputBinding_feeds_iff h.identifiers hfit hid hi).mp hf
  exact ⟨m, hm, hout, by simp [Node.feeds, hout, hr, hop], rfl⟩

theorem implements_of_reads (h : g.Acceptable) {fresh : String → Nat → V}
    {immediate : Nat → String → V} {records : List (Record V)}
    (hall : ∀ (t : Nat) (record : Record V), records[t]? = some record →
      (g.planOf naming).Reads fresh records t record ∧ ∃ before after,
        (g.planOf naming).StepSpec R (immediate t) t before record after)
    {t : Nat} {record : Record V} (ht : records[t]? = some record) :
    g.Implements R fresh immediate records t record := by
  obtain ⟨hreads, before, after, hstep⟩ := hall t record ht
  refine ⟨?_, ?_, ?_, step_meant h hstep, ?_⟩
  · intro n hn hi hk
    refine hstep.given n.inputBinding (List.mem_filter.mpr ⟨?_, ?_⟩)
    · exact mem_planOf_inputs.mpr ⟨n, hn, Node.isInput_iff.mpr hi, rfl⟩
    · simp [Node.inputBinding, hk]
  · intro id n k hid hi hk hle
    have hr := @mem_recurrentInputs_of_node g naming n k (List.mem_of_getElem? hid) hi hk
    obtain ⟨past, hpast, o, ho, hf, v, hv, hin⟩ := hreads.delayed _ hr hle
    obtain ⟨m, hm, hout, hfeeds, rfl⟩ := feeder_of_binding h hid hi ho hf
    -- The earlier record is a step of the same run, so its output had its meaning then.
    obtain ⟨-, _, _, hpaststep⟩ := hall _ past hpast
    obtain ⟨x, w, hx, hmean, hw⟩ := output_meant h (step_meant h hpaststep) hm hout
    obtain rfl : w = v := Option.some.inj (hw.symm.trans hv)
    refine ⟨m, hm, hfeeds, ?_, x, w, past, hx, hpast, hmean, hin⟩
    intro m' hm' hf'
    have hrec : n.isRecurrent := by simp [Node.isRecurrent, hk]
    exact h.feeder_unique hid (Node.isInput_iff.mpr hi) hrec hm hm' hfeeds hf'
  · intro n hn hi k hk hlt
    exact hreads.initial _ (mem_recurrentInputs_of_node hn hi hk) hlt
  · intro n hn hk hr
    have hout := Node.isOutput_iff.mpr hk
    obtain ⟨x, v, hx, hmean, hv⟩ := output_meant h (step_meant h hstep) hn hout
    obtain ⟨w, hw, hst⟩ := hstep.stored _ (mem_planOf_outputs.mpr ⟨n, hn, hout, rfl⟩)
    obtain rfl : w = v := Option.some.inj (hw.symm.trans hv)
    have hfeeds : (g.outputBinding n).feeds = none := by
      simp [outputBinding, Node.isRecurrent, hr]
    rw [hfeeds] at hst
    exact ⟨x, w, hx, hmean, hst⟩

theorem run_implements_recurrence {plan : Plan} (h : g.lower naming = .ok plan)
    (hoffset : ∀ n ∈ g.nodes, n.kind = .input → ∀ k, n.recurrenceOffset = some k →
      1 ≤ k.toNat ∧ k.toNat < UInt64.size - 1) :
    plan.render = .ok (Header.includes ++ "\n" ++ Header.namespaceText plan) ∧
    (plan.evaluator.builderText = Header.builder plan ∧
      plan.evaluator.loaderText = Header.loader plan ∧
      plan.evaluator.evaluateText = Header.evaluate plan) ∧
    (∀ a ∈ plan.evaluator.allocations, ∀ s ∈ plan.evaluator.slots, s.history = a.history →
      ∀ t : Nat, ∃ j < a.length, s.index.eval (.ok t) = .ok (j : Int)) ∧
    (∀ b ∈ plan.evaluator.bindings, ∀ s, .slot s ∈ plan.evaluator.targets →
      s.history = b.2.history → ∀ t : Nat, s.index.eval (.ok t) ≠ b.2.index.eval (.ok t)) ∧
    ∀ (V : Type) (R : Runtime V) (fresh : String → Nat → V) (immediate : Nat → String → V)
      (T : Nat), ∃ records histories,
        plan.evaluator.run R fresh immediate (T + 1) = .ok (records, histories) ∧
        records.length = T + 1 ∧
        ∀ (t : Nat) (record : Record V), records[t]? = some record →
          g.Implements R fresh immediate records t record := by
  obtain ⟨hacc, rfl⟩ := lower_eq_ok_iff.mp h
  have hwired := wired_planOf hacc naming
  have hrange : ∀ r ∈ (g.planOf naming).recurrentInputs,
      1 ≤ r.2.offset.toNat ∧ r.2.offset.toNat < UInt64.size - 1 := by
    intro r hr
    obtain ⟨n, hn, hi, hk⟩ := offset_of_recurrentInput hr
    exact hoffset n hn hi r.2.offset hk
  refine ⟨Plan.render_ok fun r hr => (hrange r hr).2,
    ⟨builderText_evaluator _, loaderText_evaluator _, evaluateText_evaluator _⟩, ?_, ?_, ?_⟩
  · intro a ha s hs heq t
    exact Plan.slot_inRange hwired ha hs heq t
  · intro b hb s hs heq t
    exact Plan.slots_apart hwired (fun r hr => (hrange r hr).1) hb hs heq t
  · intro V R fresh immediate T
    obtain ⟨records, histories, hrun, hlen, -, hall⟩ := Plan.run_ok (R := R) hwired
      (body_ok hacc) (fun r hr => (hrange r hr).1) fresh immediate (T + 1)
    exact ⟨records, histories, hrun, hlen, fun t record ht => implements_of_reads hacc hall ht⟩

theorem runningSum_implements_recurrence :
    runningSum.lower {} = .ok (runningSum.planOf {}) ∧
    (∀ n ∈ runningSum.nodes, n.kind = .input → ∀ k, n.recurrenceOffset = some k →
      1 ≤ k.toNat ∧ k.toNat < UInt64.size - 1) ∧
    ∃ records histories,
      (runningSum.planOf {}).evaluator.run addRuntime (fun _ _ => 0) (fun t _ => t) 8 =
        .ok (records, histories) ∧
      records.length = 8 ∧
      ∀ (t : Nat) (record : Record Int), records[t]? = some record →
        runningSum.Implements addRuntime (fun _ _ => 0) (fun t _ => t) records t record := by
  have hoffset : ∀ n ∈ runningSum.nodes, n.kind = .input → ∀ k, n.recurrenceOffset = some k →
      1 ≤ k.toNat ∧ k.toNat < UInt64.size - 1 := by
    simp [runningSum]
  obtain ⟨-, -, -, -, hrun⟩ := run_implements_recurrence runningSum_lower hoffset
  exact ⟨runningSum_lower, hoffset, hrun Int addRuntime (fun _ _ => 0) (fun t _ => t) 7⟩

end Graph

end EvaluatorGen
