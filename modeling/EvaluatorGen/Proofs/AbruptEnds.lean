import EvaluatorGen.Proofs.Evaluator.Recurrence
import EvaluatorGen.Proofs.Header.Sizes
import EvaluatorGen.Proofs.Lowering.Indexed
import EvaluatorGen.Proofs.Weights.Store

/-!
Where a run ends abruptly: a list read out of its range, or a size that does not fit in a word.

1. Lowering reads no list out of its range (`Indexed.lower_eq`), and no count of consumers exceeds
   the number of nodes.
2. `generate_overflow_iff`: printing a plan overflows only in the length of a history.
3. `elementCount_cases`: the number of elements overflows if a product of leading sizes does, even
   where a later size is zero.
4. `ofGraph_overflow_iff`, `validate_overflow_iff`: leaves are taken in the order of the graph, so
   one that overflows counts only if no leaf before it is refused.
-/
namespace EvaluatorGen

/-- Some product of the leading sizes of the shape does not fit in a word. -/
def Node.Overflows (n : Node) : Prop :=
  ∃ k ≤ n.shape.length, UInt64.size ≤ ((n.shape.take k).map UInt64.toNat).prod

/-! ### Products -/

theorem foldlM_checkedMul_error_iff {sizes : List UInt64} {a : UInt64} :
    (∃ o, sizes.foldlM checkedMul a = .error o) ↔
      ∃ k ≤ sizes.length, UInt64.size ≤ a.toNat * ((sizes.take k).map UInt64.toNat).prod := by
  have hlt := a.toNat_lt_size
  induction sizes generalizing a with
  | nil =>
    refine iff_of_false (fun ⟨_, h⟩ => nomatch h) ?_
    rintro ⟨k, -, hk⟩
    rw [List.take_nil, List.map_nil, List.prod_nil, Nat.mul_one] at hk
    omega
  | cons s sizes ih =>
    rw [List.foldlM_cons]
    by_cases hfit : a.toNat * s.toNat < UInt64.size
    · have hmul : checkedMul a s = .ok (a * s) := checkedMul_ok_iff.mpr ⟨hfit, rfl⟩
      rw [hmul]
      refine (ih (a * s).toNat_lt_size).trans ?_
      rw [toNat_checkedMul hmul]
      refine ⟨?_, ?_⟩
      · intro ⟨k, hk, hprod⟩
        refine ⟨k + 1, Nat.succ_le_succ hk, ?_⟩
        rw [List.take_succ_cons, List.map_cons, List.prod_cons, ← Nat.mul_assoc]
        exact hprod
      · intro ⟨k, hk, hprod⟩
        cases k with
        | zero =>
          rw [List.take_zero, List.map_nil, List.prod_nil, Nat.mul_one] at hprod
          omega
        | succ k =>
          rw [List.take_succ_cons, List.map_cons, List.prod_cons, ← Nat.mul_assoc] at hprod
          exact ⟨k, Nat.le_of_succ_le_succ hk, hprod⟩
    · -- The first factor does it, whatever follows.
      have hmul : checkedMul a s = .error .multiply := if_neg hfit
      rw [hmul]
      refine iff_of_true ⟨_, rfl⟩ ⟨1, Nat.succ_le_succ (Nat.zero_le _), ?_⟩
      rw [List.take_succ_cons, List.take_zero, List.map_singleton, List.prod_singleton]
      exact Nat.not_lt.mp hfit

theorem Node.elementCount_cases (n : Node) :
    n.Overflows ∧ (∃ o, n.elementCount = .error o) ∨
      ¬ n.Overflows ∧ ∃ c, n.elementCount = .ok c ∧ c.toNat = n.extent := by
  have herror : (∃ o, n.elementCount = .error o) ↔ n.Overflows := by
    rw [elementCount, checkedProduct, foldlM_checkedMul_error_iff, Overflows]
    simp only [UInt64.toNat_one, Nat.one_mul]
  cases hcount : n.elementCount with
  | error o => exact .inl ⟨herror.mp ⟨o, hcount⟩, o, rfl⟩
  | ok c =>
    refine .inr ⟨?_, c, rfl, checkedProduct_ok hcount⟩
    intro hover
    obtain ⟨o, ho⟩ := herror.mpr hover
    rw [hcount] at ho
    cases ho

/-! ### Leaves -/

namespace Weights

variable {w : Weights} {n : Node} {values : List Binary64}

theorem checkLength_ok_iff :
    checkLength n values = .ok () ↔ ¬ n.Overflows ∧ values.length = n.extent := by
  rcases n.elementCount_cases with ⟨hover, o, hcount⟩ | ⟨hfits, c, hcount, hc⟩
  · rw [checkLength, hcount]
    exact iff_of_false (fun h => by cases h) (fun h => h.1 hover)
  · rw [checkLength, hcount, ← hc]
    show (if values.length = c.toNat then Except.ok () else _) = .ok () ↔ _
    by_cases hlen : values.length = c.toNat
    · rw [if_pos hlen]
      exact iff_of_true rfl ⟨hfits, hlen⟩
    · rw [if_neg hlen]
      exact iff_of_false (fun h => by cases h) (fun h => hlen h.2)

theorem checkLength_overflow_iff :
    (∃ o, checkLength n values = .error (.overflow o)) ↔ n.Overflows := by
  rcases n.elementCount_cases with ⟨hover, o, hcount⟩ | ⟨hfits, c, hcount, -⟩
  · rw [checkLength, hcount]
    exact iff_of_true ⟨o, rfl⟩ hover
  · rw [checkLength, hcount]
    show (∃ o, (if values.length = c.toNat then Except.ok () else _) = .error _) ↔ _
    refine iff_of_false ?_ hfits
    intro ⟨o, h⟩
    split at h <;> cases h

theorem exists_split_cons {α : Type} {x : α} {xs : List α} {found passed : α → Prop} :
    (∃ before y after, x :: xs = before ++ y :: after ∧ found y ∧ ∀ z ∈ before, passed z) ↔
      found x ∨ passed x ∧
        ∃ before y after, xs = before ++ y :: after ∧ found y ∧ ∀ z ∈ before, passed z := by
  refine ⟨?_, ?_⟩
  · rintro ⟨before, y, after, h, hy, hbefore⟩
    cases before with
    | nil =>
      obtain ⟨rfl, -⟩ := List.cons.inj h
      exact .inl hy
    | cons z before =>
      obtain ⟨rfl, htail⟩ := List.cons.inj h
      rw [List.forall_mem_cons] at hbefore
      exact .inr ⟨hbefore.1, before, y, after, htail, hy, hbefore.2⟩
  · rintro (hx | ⟨hx, before, y, after, rfl, hy, hbefore⟩)
    · exact ⟨[], x, xs, rfl, hx, List.forall_mem_nil _⟩
    · exact ⟨x :: before, y, after, rfl, hy, List.forall_mem_cons.mpr ⟨hx, hbefore⟩⟩

/-- The first leaf that is not as it should be decides. A leaf that overflows is such a leaf, even
    if it meets the condition `fits` on the leaves before it. -/
theorem forM_overflow_iff {check : Node → Except WeightError Unit} {exceeds fits : Node → Prop}
    (hover : ∀ n, (∃ o, check n = .error (.overflow o)) ↔ exceeds n)
    (hok : ∀ n, check n = .ok () ↔ fits n ∧ ¬ exceeds n) (ns : List Node) :
    (∃ o, ns.forM check = .error (.overflow o)) ↔
      ∃ before n after, ns = before ++ n :: after ∧ exceeds n ∧ ∀ m ∈ before, fits m := by
  induction ns with
  | nil =>
    refine iff_of_false (fun ⟨_, h⟩ => nomatch h) ?_
    rintro ⟨before, n, after, h, -⟩
    exact List.append_ne_nil_of_right_ne_nil before (List.cons_ne_nil n after) h.symm
  | cons n ns ih =>
    have hforM : (n :: ns).forM check = (check n >>= fun _ => ns.forM check) := rfl
    rw [hforM, exists_split_cons, ← ih]
    by_cases hn : exceeds n
    · obtain ⟨o, ho⟩ := (hover n).mpr hn
      rw [ho]
      exact iff_of_true ⟨o, rfl⟩ (.inl hn)
    · rw [or_iff_right hn]
      cases hcheck : check n with
      | ok u => exact (and_iff_right ((hok n).mp hcheck).1).symm
      | error e =>
        refine iff_of_false ?_ ?_
        · rintro ⟨o, h⟩
          cases h
          exact hn ((hover n).mp ⟨o, hcheck⟩)
        · rintro ⟨hfits, -⟩
          have hfine := (hok n).mpr ⟨hfits, hn⟩
          rw [hcheck] at hfine
          cases hfine

theorem validate_overflow_iff {g : Graph} :
    (∃ o, w.validate g = .error (.overflow o)) ↔
      ∃ before n after, g.leaves = before ++ n :: after ∧
        ((w.get? n.uid).isSome ∧ n.Overflows) ∧
        ∀ m ∈ before, ∃ values, w.get? m.uid = some values ∧ values.length = m.extent := by
  apply forM_overflow_iff
  · intro n
    unfold checkLeaf
    cases w.get? n.uid with
    | none => simp
    | some values => simp [checkLength_overflow_iff]
  · intro n
    unfold checkLeaf
    cases w.get? n.uid with
    | none => simp
    | some values => simp [checkLength_ok_iff, and_comm]

/-- The values that a leaf carries, if any, are as many as its shape has elements. -/
def checkValue (n : Node) : Except WeightError Unit :=
  match n.value with
  | none => .ok ()
  | some values => checkLength n values

theorem addLeaf_unit (w : Weights) (n : Node) :
    (w.addLeaf n).map (fun _ => ()) = checkValue n := by
  unfold addLeaf checkValue
  cases n.value with
  | none => rfl
  | some values =>
    show (checkLength n values >>= fun _ => pure (w.insert n.uid values)).map _ =
      checkLength n values
    cases checkLength n values <;> rfl

theorem foldlM_addLeaf_unit (ns : List Node) (w : Weights) :
    (ns.foldlM addLeaf w).map (fun _ => ()) = ns.forM checkValue := by
  induction ns generalizing w with
  | nil => rfl
  | cons n ns ih =>
    have hforM : (n :: ns).forM checkValue = (checkValue n >>= fun _ => ns.forM checkValue) := rfl
    rw [List.foldlM_cons, hforM, ← addLeaf_unit w n]
    cases w.addLeaf n with
    | error e => rfl
    | ok w' => exact ih w'

theorem ofGraph_overflow_iff {g : Graph} :
    (∃ o, ofGraph g = .error (.overflow o)) ↔
      ∃ before n after, g.leaves = before ++ n :: after ∧ (n.value.isSome ∧ n.Overflows) ∧
        ∀ m ∈ before, ∀ values, m.value = some values → values.length = m.extent := by
  have hunit := foldlM_addLeaf_unit g.leaves empty
  have hforM : (∃ o, ofGraph g = .error (.overflow o)) ↔
      ∃ o, g.leaves.forM checkValue = .error (.overflow o) := by
    rw [← hunit, ofGraph]
    cases g.leaves.foldlM addLeaf empty <;> simp [Except.map]
  rw [hforM]
  apply forM_overflow_iff
  · intro n
    unfold checkValue
    cases n.value with
    | none => simp
    | some values => simp [checkLength_overflow_iff]
  · intro n
    unfold checkValue
    cases n.value with
    | none => simp
    | some values => simp [checkLength_ok_iff, and_comm]

end Weights

/-! ### Histories -/

namespace Graph

variable {g : Graph} {naming : Naming}

theorem generate_overflow_iff :
    (∃ o, g.generate naming = .error (.overflow o)) ↔
      (∃ plan, g.lower naming = .ok plan) ∧
        ∃ n ∈ g.nodes, n.kind = .input ∧
          ∃ k, n.recurrenceOffset = some k ∧ k.toNat = UInt64.size - 1 := by
  cases hlower : g.lower naming with
  | error e =>
    rw [generate_of_refused hlower]
    simp
  | ok plan =>
    obtain ⟨-, rfl⟩ := lower_eq_ok_iff.mp hlower
    have hrender : (∃ o, g.generate naming = .error (.overflow o)) ↔
        ∃ o, (g.planOf naming).render = .error o := by
      rw [generate_of_lowered hlower]
      cases (g.planOf naming).render with
      | error o => exact iff_of_true ⟨o, rfl⟩ ⟨o, rfl⟩
      | ok source => exact iff_of_false (fun ⟨_, h⟩ => nomatch h) (fun ⟨_, h⟩ => nomatch h)
    rw [hrender, Plan.render_error_iff]
    refine ⟨?_, ?_⟩
    · intro ⟨r, hr, hmax⟩
      obtain ⟨n, hn, hi, hk⟩ := offset_of_recurrentInput hr
      exact ⟨⟨_, rfl⟩, n, hn, hi, r.2.offset, hk, hmax⟩
    · rintro ⟨-, n, hn, hi, k, hk, hmax⟩
      exact ⟨_, mem_recurrentInputs_of_node hn hi hk, hmax⟩

theorem generate_ok_of_lower {plan : Plan} (h : g.lower naming = .ok plan)
    (hno : ¬ ∃ o, g.generate naming = .error (.overflow o)) :
    ∃ source, g.generate naming = .ok ⟨plan, source⟩ := by
  rw [generate_of_lowered h] at hno ⊢
  cases hrender : plan.render with
  | error o =>
    rw [hrender] at hno
    exact absurd ⟨o, rfl⟩ hno
  | ok source => exact ⟨source, rfl⟩

theorem consumerCounts_le {c : Nat} (h : c ∈ g.consumerCounts) : c ≤ g.size := by
  obtain ⟨i, hi, rfl⟩ := List.mem_iff_getElem.mp h
  have hlt : i < g.size := (Indexed.consumerCounts_eq g).2 ▸ hi
  have hcount := consumerCounts_getElem? g hlt
  rw [List.getElem?_eq_getElem hi] at hcount
  rw [Option.some.inj hcount]
  exact List.countP_le_length

/-- All the ways in which a run ends abruptly. Lowering has none: with lists that are read by index
    it has the outcome of `lower`, and its counts are words. A refusal of lowering is that of the
    header; a plan has a header unless some input reads what was written `UInt64.size - 1` steps
    ago, and then the length of its history overflows. The store of a graph, and the check of a
    store, overflow at a leaf with too many elements, unless a leaf before it is refused. -/
theorem abrupt_end_iff (g : Graph) (naming : Naming) (w : Weights) :
    (Indexed.lower g naming = (g.lower naming).mapError .refused ∧
      ∀ c ∈ g.consumerCounts, c ≤ g.size) ∧
    (∀ e, g.lower naming = .error e → g.generate naming = .error (.compile e)) ∧
    ((∃ o, g.generate naming = .error (.overflow o)) ↔
      (∃ plan, g.lower naming = .ok plan) ∧
        ∃ n ∈ g.nodes, n.kind = .input ∧
          ∃ k, n.recurrenceOffset = some k ∧ k.toNat = UInt64.size - 1) ∧
    (∀ plan, g.lower naming = .ok plan →
      (∀ n ∈ g.nodes, n.kind = .input →
        ∀ k, n.recurrenceOffset = some k → k.toNat ≠ UInt64.size - 1) →
      ∃ source, g.generate naming = .ok ⟨plan, source⟩) ∧
    ((∃ o, Weights.ofGraph g = .error (.overflow o)) ↔
      ∃ before n after, g.leaves = before ++ n :: after ∧ (n.value.isSome ∧ n.Overflows) ∧
        ∀ m ∈ before, ∀ values, m.value = some values → values.length = m.extent) ∧
    ((∃ o, w.validate g = .error (.overflow o)) ↔
      ∃ before n after, g.leaves = before ++ n :: after ∧
        ((w.get? n.uid).isSome ∧ n.Overflows) ∧
        ∀ m ∈ before, ∃ values, w.get? m.uid = some values ∧ values.length = m.extent) := by
  refine ⟨⟨Indexed.lower_eq g naming, fun _ => consumerCounts_le⟩,
    fun _ => generate_of_refused, generate_overflow_iff, ?_, Weights.ofGraph_overflow_iff,
    Weights.validate_overflow_iff⟩
  intro plan hlower hoffsets
  apply generate_ok_of_lower hlower
  rw [generate_overflow_iff]
  rintro ⟨-, n, hn, hi, k, hk, hmax⟩
  exact hoffsets n hn hi k hk hmax

/-- An input that reads what was written `UInt64.size - 1` steps ago, and a matrix with
    `UInt64.size` elements behind a vector of two. -/
def outsized : Graph where
  nodes := [
    { uid := "h", kind := .input, shape := [2], recurrenceOffset := some 0xFFFFFFFFFFFFFFFF },
    { uid := "b", kind := .constant, shape := [2], value := some [⟨0⟩, ⟨0⟩] },
    { uid := "W", kind := .parameter, shape := [0x8000000000000000, 2], value := some [] },
    { uid := "z", kind := .output, shape := [2], recurrenceOffset := some 1,
      operands := [0, 0] }]

theorem outsized_abrupt_end :
    (∃ plan, outsized.lower {} = .ok plan) ∧
    (∃ o, outsized.generate {} = .error (.overflow o)) ∧
    (∃ o, Weights.ofGraph outsized = .error (.overflow o)) ∧
    (∃ o, ((Weights.empty.insert "W" []).insert "b" [⟨0⟩, ⟨1⟩]).validate outsized =
      .error (.overflow o)) ∧
    (∃ source, runningSum.generate {} = .ok ⟨runningSum.planOf {}, source⟩) ∧
    Graph.generate ⟨[{ uid := "y", kind := .output }]⟩ {} =
      .error (.compile (.malformedOutput "y" false 0)) := by
  have hplan : outsized.lower {} = .ok (outsized.planOf {}) := by decide +kernel
  have hover : (⟨"W", none, .parameter, [0x8000000000000000, 2], .f32, none, none, [],
      some []⟩ : Node).Overflows := ⟨2, Nat.le_refl 2, by decide⟩
  have hall := abrupt_end_iff outsized {} ((Weights.empty.insert "W" []).insert "b" [⟨0⟩, ⟨1⟩])
  obtain ⟨-, -, hgenerate, -, hstore, hvalidate⟩ := hall
  refine ⟨⟨_, hplan⟩, hgenerate.mpr ⟨⟨_, hplan⟩, _, List.mem_cons_self, rfl, _, rfl, rfl⟩,
    hstore.mpr ⟨[_], _, [], rfl, ⟨rfl, hover⟩, ?_⟩,
    hvalidate.mpr ⟨[_], _, [], rfl, ⟨by decide +kernel, hover⟩, ?_⟩, ?_, ?_⟩
  · intro m hm values hv
    rw [List.mem_singleton.mp hm] at hv ⊢
    cases hv
    rfl
  · intro m hm
    rw [List.mem_singleton.mp hm]
    exact ⟨[⟨0⟩, ⟨1⟩], by decide +kernel, rfl⟩
  · obtain ⟨-, -, -, hok, -⟩ := abrupt_end_iff runningSum {} .empty
    exact hok _ runningSum_lower (by simp [runningSum])
  · obtain ⟨-, hrefused, -⟩ := abrupt_end_iff ⟨[{ uid := "y", kind := .output }]⟩ {} .empty
    exact hrefused _ (by decide +kernel)

end Graph

end EvaluatorGen
