import EvaluatorGen.Proofs.Acceptance

/-!
The signature of a plan.

Putting the inputs and outputs in order loses none of them and adds none (`signatureOrder_perm`),
so a plan has one binding for each input node and one for each output node of its graph. With
distinct names the order depends on the entries alone, and not on how they were listed
(`signatureOrder_eq_of_perm`).
-/
namespace EvaluatorGen

namespace Draft

variable {α : Type} {name : α → String}

theorem insertByName_perm (x : α) (ys : List α) : (insertByName name x ys).Perm (x :: ys) := by
  induction ys with
  | nil => exact .refl _
  | cons y ys ih =>
    rw [insertByName]
    split
    · exact .refl _
    · exact (ih.cons y).trans (.swap x y ys)

theorem sortByName_perm (xs : List α) : (sortByName name xs).Perm xs := by
  have key : ∀ sorted : List α,
      (xs.foldl (fun sorted x => insertByName name x sorted) sorted).Perm (sorted ++ xs) := by
    induction xs with
    | nil =>
      intro sorted
      simp
    | cons x xs ih =>
      intro sorted
      refine (ih _).trans ?_
      refine ((insertByName_perm x sorted).append_right xs).trans ?_
      exact List.perm_middle.symm
  simpa [sortByName] using key []

theorem signatureOrder_perm {recurrent : α → Bool} (xs : List α) :
    (signatureOrder name recurrent xs).Perm xs := by
  refine ((sortByName_perm _).append (sortByName_perm _)).trans ?_
  exact List.perm_append_comm.trans (List.filter_append_perm recurrent xs)

/-! ### Order -/

theorem insertByName_sorted (x : α) {ys : List α} (h : ys.Pairwise fun a b => name a ≤ name b) :
    (insertByName name x ys).Pairwise fun a b => name a ≤ name b := by
  induction ys with
  | nil => exact List.pairwise_singleton _ _
  | cons y ys ih =>
    obtain ⟨hy, hys⟩ := List.pairwise_cons.mp h
    rw [insertByName]
    split
    · rename_i hlt
      have hle : name x ≤ name y := String.not_lt.mp (String.lt_asymm hlt)
      refine List.pairwise_cons.mpr ⟨?_, h⟩
      rw [List.forall_mem_cons]
      exact ⟨hle, fun z hz => String.le_trans hle (hy z hz)⟩
    · rename_i hge
      refine List.pairwise_cons.mpr ⟨?_, ih hys⟩
      intro z hz
      rcases List.mem_cons.mp ((insertByName_perm x ys).mem_iff.mp hz) with rfl | hz
      · exact String.not_lt.mp hge
      · exact hy z hz

theorem sortByName_sorted (xs : List α) :
    (sortByName name xs).Pairwise fun a b => name a ≤ name b := by
  have key : ∀ sorted : List α, (sorted.Pairwise fun a b => name a ≤ name b) →
      (xs.foldl (fun sorted x => insertByName name x sorted) sorted).Pairwise
        fun a b => name a ≤ name b := by
    induction xs with
    | nil => exact fun _ h => h
    | cons x xs ih => exact fun sorted h => ih _ (insertByName_sorted x h)
  exact key [] .nil

/-- Entries with distinct names are sorted strictly. -/
theorem sortByName_strict {xs : List α} (hd : (xs.map name).Nodup) :
    (sortByName name xs).Pairwise fun a b => name a < name b := by
  have hd' : ((sortByName name xs).map name).Nodup :=
    ((sortByName_perm xs).map name).nodup_iff.mpr hd
  refine ((sortByName_sorted xs).and (List.pairwise_map.mp hd')).imp ?_
  rintro a b ⟨hle, hne⟩
  by_contra hlt
  exact hne (String.le_antisymm hle (String.not_lt.mp hlt))

theorem sortByName_eq_of_perm {xs ys : List α} (h : xs.Perm ys) (hd : (xs.map name).Nodup) :
    sortByName name xs = sortByName name ys := by
  have hp : (sortByName name xs).Perm (sortByName name ys) :=
    (sortByName_perm xs).trans (h.trans (sortByName_perm ys).symm)
  refine List.Perm.eq_of_pairwise ?_ (sortByName_sorted xs) (sortByName_sorted ys) hp
  -- Entries that stand in both orders have one name, and that is one entry.
  intro a b ha hb hab hba
  have ha' := (sortByName_perm xs).mem_iff.mp ha
  have hb' := h.mem_iff.mpr ((sortByName_perm ys).mem_iff.mp hb)
  exact List.inj_on_of_nodup_map hd ha' hb' (String.le_antisymm hab hba)

theorem signatureOrder_eq_of_perm {recurrent : α → Bool} {xs ys : List α} (h : xs.Perm ys)
    (hd : (xs.map name).Nodup) :
    signatureOrder name recurrent xs = signatureOrder name recurrent ys := by
  have key : ∀ p : α → Bool, sortByName name (xs.filter p) = sortByName name (ys.filter p) :=
    fun p => sortByName_eq_of_perm (h.filter p) (hd.sublist (List.filter_sublist.map _))
  rw [signatureOrder, signatureOrder, key, key]

end Draft

namespace Graph

variable {g : Graph} {naming : Naming}

theorem mem_planOf_inputs {i : InputBinding} :
    i ∈ (g.planOf naming).inputs ↔ ∃ n ∈ g.nodes, n.isInput ∧ n.inputBinding = i := by
  rw [planOf, (Draft.signatureOrder_perm _).mem_iff, List.mem_map]
  simp [and_assoc]

theorem mem_planOf_outputs {o : OutputBinding} :
    o ∈ (g.planOf naming).outputs ↔ ∃ n ∈ g.nodes, n.isOutput ∧ g.outputBinding n = o := by
  rw [planOf, (Draft.signatureOrder_perm _).mem_iff, List.mem_map]
  simp [and_assoc]

/-- The outputs have distinct names, so a name belongs to one output node. -/
theorem Acceptable.output_unique (h : g.Acceptable) {n m : Node} (hn : n ∈ g.nodes)
    (hm : m ∈ g.nodes) (ho : n.isOutput) (ho' : m.isOutput)
    (heq : n.signatureName = m.signatureName) : n = m :=
  List.inj_on_of_nodup_map h.outputNames (List.mem_filter.mpr ⟨hn, ho⟩)
    (List.mem_filter.mpr ⟨hm, ho'⟩) heq

/-! ### A feedback loop -/

/-- The sum of a product by a quantized matrix and of what the sum was two steps ago. -/
def runningSum : Graph where
  nodes := [
    { uid := "x", kind := .input, shape := [2] },
    { uid := "h", kind := .input, shape := [2], recurrenceOffset := some 2 },
    { uid := "W", kind := .parameter, shape := [2, 2], quantization := some { bits := 8 } },
    { uid := "p", kind := .operator "Times" {}, shape := [2], operands := [0, 2] },
    { uid := "s", kind := .operator "Plus" {}, shape := [2], operands := [3, 1] },
    { uid := "y", kind := .output, shape := [2], operands := [4] },
    { uid := "z", kind := .output, shape := [2], recurrenceOffset := some 2,
      operands := [4, 1] }]

theorem runningSum_lower : runningSum.lower {} = .ok (runningSum.planOf {}) := by
  decide +kernel

theorem runningSum_inputs : (runningSum.planOf {}).inputs =
    [⟨"x", "x", .float, none⟩, ⟨"h", "h", .float, some ⟨2, [2]⟩⟩] := by
  decide +kernel

end Graph

end EvaluatorGen
