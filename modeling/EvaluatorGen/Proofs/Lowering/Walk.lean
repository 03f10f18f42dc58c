import EvaluatorGen.Proofs.Lowering.Rules
import Mathlib.Data.List.Nodup

/-!
The walk over a graph in closed form.

1. `visit_ok_iff`: from the draft of the nodes before position `k`, visiting node `k` succeeds
   exactly if the node fits its place and the identifiers stay distinct, and gives the draft of
   the nodes before `k + 1`.
2. `walkTo_ok_iff`: so the walk over the first `k` nodes succeeds exactly if `PrefixFits`, and
   gives `Graph.draft`, whatever the order in which the conditions are checked.
-/
namespace EvaluatorGen

namespace Draft

theorem claim_ok_iff {uid : String} : ∀ {names reserved r : List String},
    claim uid reserved names = .ok r ↔
      (names.Nodup ∧ ∀ x ∈ names, x ∉ reserved) ∧ reserved ++ names = r
  | [], reserved, r => by simp [claim]
  | name :: names, reserved, r => by
    rw [claim]
    by_cases h : name ∈ reserved
    · simp [h]
    · rw [if_neg h, claim_ok_iff, List.append_assoc, List.singleton_append]
      simp only [List.nodup_cons, List.mem_append, List.mem_cons, not_or, forall_eq_or_imp]
      grind

end Draft

namespace Graph

variable {g : Graph} {k : Nat} {n : Node}

/-- The walk over the nodes before position `k`. -/
def walkTo (g : Graph) (k : Nat) : Except CompileError Draft :=
  (g.nodes.take k).foldlM (Draft.visit g.consumerCounts) {}

/-- The conditions on the nodes before position `k`. -/
structure PrefixFits (g : Graph) (k : Nat) : Prop where
  nodes : ∀ (id : Nat) (n : Node), id < k → g.nodes[id]? = some n → g.NodeFits id n
  identifiers : (g.reservedTo k).Nodup
  outputNames : (((g.nodes.take k).filter Node.isOutput).map Node.signatureName).Nodup

/-! ### One node more -/

theorem take_succ_of_get (h : g.nodes[k]? = some n) :
    g.nodes.take (k + 1) = g.nodes.take k ++ [n] := by
  rw [List.take_add_one, h]
  rfl

theorem length_take_of_get (h : g.nodes[k]? = some n) : (g.nodes.take k).length = k := by
  obtain ⟨hk, -⟩ := List.getElem?_eq_some_iff.mp h
  rw [List.length_take]
  omega

theorem reservedTo_succ (h : g.nodes[k]? = some n) :
    g.reservedTo (k + 1) = g.reservedTo k ++ n.identifiers := by
  simp [reservedTo, take_succ_of_get h]

theorem map_filter_singleton {α : Type} (p : Node → Bool) (f : Node → α) :
    ([n].filter p).map f = if p n then [f n] else [] := by
  cases h : p n <;> simp [h]

theorem draft_succ (h : g.nodes[k]? = some n) :
    (g.draft k).add n (g.fragment k n) (g.reservedTo k ++ n.identifiers) = g.draft (k + 1) := by
  have hz : (g.nodes.take k ++ [n]).zipIdx = (g.nodes.take k).zipIdx ++ [(n, k)] := by
    rw [List.zipIdx_append, length_take_of_get h]
    simp
  unfold draft Draft.add
  rw [← reservedTo_succ h, take_succ_of_get h, hz]
  simp only [List.map_append, List.filter_append, List.flatMap_append, List.map_singleton,
    List.flatMap_singleton, map_filter_singleton, fragment]

theorem isShared_draft (h : g.nodes[k]? = some n) :
    decide (1 < g.consumerCounts.getD (g.draft k).scope.lowered.length 0) = g.isShared k := by
  have hl : (g.draft k).scope.lowered.length = k := by
    rw [draft, List.length_map, length_take_of_get h]
  rw [hl, isShared]

theorem visit_ok_iff (h : g.nodes[k]? = some n) (hr : (g.reservedTo k).Nodup) {d : Draft} :
    Draft.visit g.consumerCounts (g.draft k) n = .ok d ↔
      ((g.NodeFits k n ∧ g.NameFree k n) ∧ (g.reservedTo (k + 1)).Nodup) ∧
      g.draft (k + 1) = d := by
  have hnodup : (g.reservedTo (k + 1)).Nodup ↔
      n.identifiers.Nodup ∧ ∀ x ∈ n.identifiers, x ∉ g.reservedTo k := by
    rw [reservedTo_succ h, List.nodup_append]
    grind
  unfold Draft.visit
  simp only [isShared_draft h, bind_eq_ok_iff, pure_eq_ok_iff, ofNode_ok_iff, Draft.claim_ok_iff,
    hnodup]
  refine ⟨?_, ?_⟩
  · intro hx
    obtain ⟨_, ⟨hn, rfl⟩, _, ⟨hc, rfl⟩, rfl⟩ := hx
    exact ⟨⟨hn, hc⟩, (draft_succ h).symm⟩
  · intro hx
    obtain ⟨⟨hn, hc⟩, rfl⟩ := hx
    exact ⟨_, ⟨hn, rfl⟩, _, ⟨hc, rfl⟩, draft_succ h⟩

/-! ### The conditions grow with the nodes -/

theorem symbol_mem_identifiers (h : n.kind ≠ .output) : n.symbol ∈ n.identifiers := by
  unfold Node.identifiers
  cases hk : n.kind <;> simp_all

theorem identifiers_subset_reservedTo {m : Node} (hm : m ∈ g.nodes.take k) {x : String}
    (hx : x ∈ m.identifiers) : x ∈ g.reservedTo k :=
  List.mem_append_right _ (List.mem_flatMap.mpr ⟨m, hm, hx⟩)

/-- Inputs claim their names, so distinct identifiers leave no name to two inputs. -/
theorem inputFree_of_nodup (h : g.nodes[k]? = some n) (hr : (g.reservedTo (k + 1)).Nodup)
    (hn : n.isInput) : ∀ m ∈ g.nodes.take k, m.isInput → m.signatureName ≠ n.signatureName := by
  intro m hm hi heq
  rw [reservedTo_succ h, List.nodup_append] at hr
  have hms := symbol_mem_identifiers (Node.not_output_of_input hi)
  have hns := symbol_mem_identifiers (Node.not_output_of_input hn)
  apply hr.2.2 m.symbol (identifiers_subset_reservedTo hm hms) n.symbol hns
  rw [symbol_of_input hi, symbol_of_input hn, heq]

theorem outputNames_succ (h : g.nodes[k]? = some n) :
    (((g.nodes.take (k + 1)).filter Node.isOutput).map Node.signatureName).Nodup ↔
      (((g.nodes.take k).filter Node.isOutput).map Node.signatureName).Nodup ∧
      (n.isOutput → ∀ m ∈ g.nodes.take k, m.isOutput → m.signatureName ≠ n.signatureName) := by
  rw [take_succ_of_get h, List.filter_append, List.map_append, map_filter_singleton,
    List.nodup_append]
  cases n.isOutput with
  | false => simp
  | true =>
    rw [if_pos rfl]
    constructor
    · intro hx
      obtain ⟨hn, -, hne⟩ := hx
      refine ⟨hn, fun _ m hm ho => hne _ ?_ _ (List.mem_singleton_self _)⟩
      exact List.mem_map_of_mem (List.mem_filter.mpr ⟨hm, ho⟩)
    · intro hx
      obtain ⟨hn, hne⟩ := hx
      refine ⟨hn, List.nodup_singleton _, ?_⟩
      intro a ha b hb
      obtain ⟨m, hm, rfl⟩ := List.mem_map.mp ha
      obtain ⟨hm, ho⟩ := List.mem_filter.mp hm
      rw [List.mem_singleton.mp hb]
      exact hne rfl m hm ho

theorem prefixFits_succ (h : g.nodes[k]? = some n) :
    g.PrefixFits (k + 1) ↔
      g.PrefixFits k ∧ (g.NodeFits k n ∧ g.NameFree k n) ∧ (g.reservedTo (k + 1)).Nodup := by
  constructor
  · intro hp
    have hid := hp.identifiers
    have hout := (outputNames_succ h).mp hp.outputNames
    -- The names of the inputs need no condition of their own: they are claimed.
    refine ⟨⟨fun id m hid' hm => hp.nodes id m (by omega) hm, ?_, hout.1⟩,
      ⟨hp.nodes k n (by omega) h, inputFree_of_nodup h hid, hout.2⟩, hid⟩
    rw [reservedTo_succ h, List.nodup_append] at hid
    exact hid.1
  · intro hx
    obtain ⟨hp, ⟨hfit, hfree⟩, hid⟩ := hx
    refine ⟨?_, hid, (outputNames_succ h).mpr ⟨hp.outputNames, hfree.2⟩⟩
    intro id m hlt hm
    by_cases he : id = k
    · subst he
      rw [h] at hm
      cases hm
      exact hfit
    · exact hp.nodes id m (by omega) hm

theorem prefixFits_zero : g.PrefixFits 0 :=
  ⟨fun _ _ h => absurd h (by omega), by simp [reservedTo, Identifier.fixed], by simp⟩

/-! ### The whole walk -/

theorem walkTo_succ (h : g.nodes[k]? = some n) :
    g.walkTo (k + 1) = g.walkTo k >>= fun d => Draft.visit g.consumerCounts d n := by
  unfold walkTo
  rw [take_succ_of_get h, List.foldlM_append]
  simp

/-- The walk over the first `k` nodes: when it succeeds, and what it gives. -/
theorem walkTo_ok_iff (hk : k ≤ g.size) {d : Draft} :
    g.walkTo k = .ok d ↔ g.PrefixFits k ∧ g.draft k = d := by
  induction k generalizing d with
  | zero =>
    have hd : g.draft 0 = {} := by simp [draft, reservedTo]
    simp [walkTo, prefixFits_zero, hd, pure, Except.pure]
  | succ k ih =>
    have hlt : k < g.nodes.length := hk
    have h : g.nodes[k]? = some g.nodes[k] := List.getElem?_eq_getElem hlt
    have ih := fun {d} => ih (by omega) (d := d)
    rw [walkTo_succ h, bind_eq_ok_iff, prefixFits_succ h]
    refine ⟨?_, ?_⟩
    · intro hx
      obtain ⟨d', hd', hv⟩ := hx
      obtain ⟨hp, rfl⟩ := ih.mp hd'
      obtain ⟨hn, rfl⟩ := (visit_ok_iff h hp.identifiers).mp hv
      exact ⟨⟨hp, hn⟩, rfl⟩
    · intro hx
      obtain ⟨⟨hp, hn⟩, rfl⟩ := hx
      exact ⟨_, ih.mpr ⟨hp, rfl⟩, (visit_ok_iff h hp.identifiers).mpr ⟨hn, rfl⟩⟩

theorem walk_eq_walkTo : g.walk = g.walkTo g.size := by
  rw [walk, walkTo, size, List.take_length]

end Graph

end EvaluatorGen
