import EvaluatorGen.Proofs.Lowering.Rules
import EvaluatorGen.Weights.Basic
import Mathlib.Algebra.BigOperators.Group.List.Basic

/-!
Look-up in a weight store, and the stores of a graph.

1. `checkedProduct_ok`: a product of sizes that does not overflow is the product of the numbers.
2. `get?_insert` and `mem_keys_iff`: what a store holds, seen through its look-up.
3. `ofGraph_get?`: when no two leaves share a uid, the store of a graph holds the values of
   every leaf that carries some, and nothing else; when all of them do, it suits the graph:
   `validate_ofGraph`.
4. `validate_ok_iff`: a store suits a graph if it has as many values for each leaf as the
   leaf's shape has elements.
-/
namespace EvaluatorGen

/-! ### Sizes -/

theorem checkedMul_ok_iff {a b c : UInt64} :
    checkedMul a b = .ok c ↔ a.toNat * b.toNat < UInt64.size ∧ a * b = c := by
  unfold checkedMul
  split
  · rename_i h
    simp [h]
  · rename_i h
    simp [h]

theorem toNat_checkedMul {a b c : UInt64} (h : checkedMul a b = .ok c) :
    c.toNat = a.toNat * b.toNat := by
  obtain ⟨hlt, rfl⟩ := checkedMul_ok_iff.mp h
  rw [UInt64.toNat_mul]
  exact Nat.mod_eq_of_lt hlt

theorem toNat_foldlM_checkedMul {sizes : List UInt64} {a c : UInt64}
    (h : sizes.foldlM checkedMul a = .ok c) :
    c.toNat = a.toNat * (sizes.map UInt64.toNat).prod := by
  induction sizes generalizing a with
  | nil =>
    cases h
    simp
  | cons s sizes ih =>
    rw [List.foldlM_cons, bind_eq_ok_iff] at h
    obtain ⟨b, hb, hc⟩ := h
    rw [ih hc, toNat_checkedMul hb, List.map_cons, List.prod_cons, Nat.mul_assoc]

theorem checkedProduct_ok {sizes : List UInt64} {c : UInt64} (h : checkedProduct sizes = .ok c) :
    c.toNat = (sizes.map UInt64.toNat).prod := by
  have hc := toNat_foldlM_checkedMul h
  rw [UInt64.toNat_one, Nat.one_mul] at hc
  exact hc

/-- The number of elements of a shape; a scalar has one. -/
def Node.extent (n : Node) : Nat := (n.shape.map UInt64.toNat).prod

namespace WeightEntry

/-! ### Entries -/

theorem find?_insert (new : WeightEntry) (es : List WeightEntry) (uid : String) :
    (insert new es).find? (·.uid == uid) =
      if new.uid = uid then some new else es.find? (·.uid == uid) := by
  induction es with
  | nil =>
    by_cases h : new.uid = uid <;> simp [insert, h]
  | cons e es ih =>
    rw [insert]
    by_cases h : new.uid = uid
    · split
      · simp [h]
      · split
        · simp [h]
        · rename_i hne
          have he : e.uid ≠ uid := fun he => hne (h.trans he.symm)
          simp [he, ih, h]
    · split
      · simp [h]
      · split
        · rename_i heq
          have he : e.uid ≠ uid := heq ▸ h
          simp [h, he]
        · rw [List.find?_cons, List.find?_cons, ih]
          simp [h]

end WeightEntry

namespace Weights

/-- The uids that the store has values for. -/
def keys (w : Weights) : List String := w.entries.map WeightEntry.uid

theorem keys_nodup (w : Weights) : w.keys.Nodup := by
  apply List.pairwise_map.mpr
  refine w.sorted.imp ?_
  intro a b hab heq
  rw [heq] at hab
  exact String.lt_irrefl _ hab

theorem mem_keys_iff {w : Weights} {uid : String} : uid ∈ w.keys ↔ (w.get? uid).isSome := by
  rw [keys, get?, Option.isSome_map, List.find?_isSome, List.mem_map]
  simp

@[simp] theorem get?_empty (uid : String) : empty.get? uid = none := rfl

theorem get?_insert (w : Weights) (uid : String) (values : List Binary64) (k : String) :
    (w.insert uid values).get? k = if uid = k then some values else w.get? k := by
  unfold get? insert
  rw [WeightEntry.find?_insert]
  split
  · rfl
  · rfl

/-! ### Lengths -/

theorem checkLength_ok {n : Node} {values : List Binary64} {u : Unit}
    (h : checkLength n values = .ok u) : values.length = n.extent := by
  unfold checkLength at h
  obtain ⟨c, hc, hlen⟩ := bind_eq_ok_iff.mp h
  have hcount : n.elementCount = .ok c := by
    cases hx : n.elementCount with
    | error o => rw [hx] at hc; cases hc
    | ok c' => rw [hx] at hc; cases hc; rfl
  split at hlen
  · rename_i hl
    rw [hl, checkedProduct_ok hcount]
    rfl
  · cases hlen

theorem checkLeaf_ok_iff {w : Weights} {n : Node} {u : Unit} :
    w.checkLeaf n = .ok u ↔ ∃ values, w.get? n.uid = some values ∧ checkLength n values = .ok u := by
  unfold checkLeaf
  cases w.get? n.uid <;> simp

/-- A store suits a graph exactly if it has values of the right number for every leaf. -/
theorem validate_ok_iff {w : Weights} {g : Graph} {u : Unit} :
    w.validate g = .ok u ↔
      ∀ n ∈ g.leaves, ∃ values, w.get? n.uid = some values ∧ checkLength n values = .ok () := by
  unfold validate
  generalize g.leaves = ns
  induction ns with
  | nil => simp [pure, Except.pure]
  | cons n ns ih =>
    rw [List.forM, bind_eq_ok_iff, List.forall_mem_cons, ← ih, ← checkLeaf_ok_iff]
    exact ⟨fun ⟨(), hn, hns⟩ => ⟨hn, hns⟩, fun ⟨hn, hns⟩ => ⟨(), hn, hns⟩⟩

/-! ### The store of a graph -/

theorem addLeaf_ok_iff {w w' : Weights} {n : Node} :
    w.addLeaf n = .ok w' ↔
      n.value = none ∧ w = w' ∨
      ∃ values, n.value = some values ∧ checkLength n values = .ok () ∧
        w.insert n.uid values = w' := by
  unfold addLeaf
  cases n.value with
  | none => simp [pure_eq_ok_iff]
  | some values =>
    simp only [bind_eq_ok_iff, pure_eq_ok_iff]
    refine ⟨?_, ?_⟩
    · rintro ⟨⟨⟩, hlen, rfl⟩
      exact .inr ⟨values, rfl, hlen, rfl⟩
    · rintro (⟨hnone, -⟩ | ⟨_, hv, hlen, rfl⟩)
      · cases hnone
      · cases hv
        exact ⟨(), hlen, rfl⟩

/-- Adding leaves with distinct uids: each that carries values has them in the store, and no
    other uid is touched. -/
theorem foldlM_addLeaf {ns : List Node} {w w' : Weights} (hd : (ns.map Node.uid).Nodup)
    (h : ns.foldlM addLeaf w = .ok w') :
    (∀ n ∈ ns, ∀ values, n.value = some values →
      w'.get? n.uid = some values ∧ checkLength n values = .ok ()) ∧
    ∀ uid, (∀ n ∈ ns, n.uid = uid → n.value = none) → w'.get? uid = w.get? uid := by
  induction ns generalizing w with
  | nil =>
    cases h
    exact ⟨fun n hn => absurd hn List.not_mem_nil, fun _ _ => rfl⟩
  | cons m ns ih =>
    rw [List.foldlM_cons, bind_eq_ok_iff] at h
    obtain ⟨w₁, hm, hns⟩ := h
    obtain ⟨hnew, hd⟩ := List.nodup_cons.mp hd
    obtain ⟨hvalues, hrest⟩ := ih hd hns
    -- The uid of `m` is none of the later ones, so what `m` stored stays.
    have hkeep : w'.get? m.uid = w₁.get? m.uid := by
      apply hrest
      intro n hn heq
      exact absurd (List.mem_map.mpr ⟨n, hn, heq⟩) hnew
    rw [List.forall_mem_cons]
    refine ⟨⟨?_, hvalues⟩, ?_⟩
    · intro values hv
      rcases addLeaf_ok_iff.mp hm with ⟨hnone, -⟩ | ⟨values', hv', hlen, rfl⟩
      · rw [hnone] at hv
        cases hv
      · rw [hv] at hv'
        cases hv'
        rw [hkeep, get?_insert, if_pos rfl]
        exact ⟨rfl, hlen⟩
    · intro uid hnone
      rw [List.forall_mem_cons] at hnone
      rw [hrest uid hnone.2]
      rcases addLeaf_ok_iff.mp hm with ⟨-, rfl⟩ | ⟨values, hv, -, rfl⟩
      · rfl
      · have hne : m.uid ≠ uid := by
          intro heq
          rw [hnone.1 heq] at hv
          cases hv
        rw [get?_insert, if_neg hne]

theorem ofGraph_get? {g : Graph} {w : Weights} (hd : (g.leaves.map Node.uid).Nodup)
    (h : ofGraph g = .ok w) {n : Node} (hn : n ∈ g.leaves) {values : List Binary64}
    (hv : n.value = some values) :
    w.get? n.uid = some values ∧ checkLength n values = .ok () :=
  (foldlM_addLeaf hd h).1 n hn values hv

theorem mem_keys_ofGraph {g : Graph} {w : Weights} (hd : (g.leaves.map Node.uid).Nodup)
    (h : ofGraph g = .ok w) {uid : String} :
    uid ∈ w.keys ↔ ∃ n ∈ g.leaves, n.uid = uid ∧ n.value.isSome := by
  rw [mem_keys_iff]
  refine ⟨?_, ?_⟩
  · intro hs
    by_contra hno
    have hnone : ∀ n ∈ g.leaves, n.uid = uid → n.value = none := by
      intro n hn heq
      by_contra hv
      exact hno ⟨n, hn, heq, Option.isSome_iff_ne_none.mpr hv⟩
    rw [(foldlM_addLeaf hd h).2 uid hnone, get?_empty] at hs
    cases hs
  · rintro ⟨n, hn, rfl, hs⟩
    obtain ⟨values, hv⟩ := Option.isSome_iff_exists.mp hs
    rw [(ofGraph_get? hd h hn hv).1]
    rfl

theorem keys_ofGraph_perm {g : Graph} {w : Weights} (hd : (g.leaves.map Node.uid).Nodup)
    (h : ofGraph g = .ok w) (hall : ∀ n ∈ g.leaves, n.value.isSome) :
    (g.leaves.map Node.uid).Perm w.keys := by
  rw [List.perm_ext_iff_of_nodup hd w.keys_nodup]
  intro uid
  rw [mem_keys_ofGraph hd h, List.mem_map]
  refine ⟨?_, ?_⟩
  · rintro ⟨n, hn, rfl⟩
    exact ⟨n, hn, rfl, hall n hn⟩
  · rintro ⟨n, hn, rfl, -⟩
    exact ⟨n, hn, rfl⟩

theorem validate_ofGraph {g : Graph} {w : Weights} (hd : (g.leaves.map Node.uid).Nodup)
    (h : ofGraph g = .ok w) (hall : ∀ n ∈ g.leaves, n.value.isSome) : w.validate g = .ok () := by
  rw [validate_ok_iff]
  intro n hn
  obtain ⟨values, hv⟩ := Option.isSome_iff_exists.mp (hall n hn)
  exact ⟨values, ofGraph_get? hd h hn hv⟩

end Weights

end EvaluatorGen
