import EvaluatorGen.Proofs.Text.Utf8
import EvaluatorGen.Proofs.Weights.Store
import EvaluatorGen.Proofs.Weights.Writing
import Mathlib.Data.List.Forall2

/-!
Weight stores written and read again.

1. `read_text`: what is written of a store of finite values is read as the store of the same uids
   in which every value is reloaded.
2. `write_read` says of the values alone what they become, by two roundings to nearest.
3. `write_read_write`: the second trip changes nothing, and the first nothing from 2²³ on.
-/
namespace EvaluatorGen

namespace Weights

/-! ### Reading -/

theorem readChars_text (w : Weights) :
    Json.readChars (w.text.toList.map some) =
      { value := .object (w.entries.map fun e => Json.memberOf (itemOf e)) } := by
  rw [Json.readChars, (lexes_text w).tokens_eq, Json.document_tokensOfMembers, List.map_map]
  rfl

end Weights

namespace WeightEntry

/-- An entry that comes after all others is put behind them. -/
theorem insert_last {new : WeightEntry} {es : List WeightEntry} (h : ∀ e ∈ es, e.uid < new.uid) :
    insert new es = es ++ [new] := by
  induction es with
  | nil => rfl
  | cons e es ih =>
    rw [List.forall_mem_cons] at h
    have hne : new.uid ≠ e.uid := by
      intro heq
      exact String.lt_irrefl _ (heq ▸ h.1)
    rw [insert, if_neg (String.lt_asymm h.1), if_neg hne, ih h.2]
    rfl

/-- The entry with the values that are read of it when it has been written. -/
def reload (e : WeightEntry) : WeightEntry := ⟨e.uid, e.values.map Binary64.reload⟩

theorem Sorted.reload {es : List WeightEntry} (h : Sorted es) :
    Sorted (es.map WeightEntry.reload) :=
  List.pairwise_map.mpr h

end WeightEntry

namespace Weights

/-- The store that is read of a store that has been written. -/
def reload (w : Weights) : Weights := ⟨w.entries.map WeightEntry.reload, w.sorted.reload⟩

theorem asList_reload {values : List Binary64} (h : ∀ v ∈ values, v.isFinite) :
    (Json.Value.array (values.map fun v => .float v.reload)).asList Json.Value.asBinary64 =
      .ok (values.map Binary64.reload) :=
  Json.asList_map fun v hv => if_pos (Binary64.isFinite_reload (h v hv))

/-- One entry after another is taken into the store. -/
theorem foldlM_take {es : List WeightEntry} {w : Weights}
    (hsorted : WeightEntry.Sorted (w.entries ++ es.map WeightEntry.reload))
    (h : ∀ e ∈ es, ∀ v ∈ e.values, v.isFinite) :
    ∃ w' : Weights, (es.map fun e => Json.memberOf (itemOf e)).foldlM
        (Json.Value.foldMembers.take fun w uid values =>
          return w.insert uid (← values.asList Json.Value.asBinary64)) w = .ok w' ∧
      w'.entries = w.entries ++ es.map WeightEntry.reload := by
  induction es generalizing w with
  | nil => exact ⟨w, rfl, by rw [List.map_nil, List.append_nil]⟩
  | cons e es ih =>
    rw [List.forall_mem_cons] at h
    -- The entries come in the order of their uids, so each one is put behind what is there.
    have hlast : (w.insert e.uid (e.values.map Binary64.reload)).entries =
        w.entries ++ [e.reload] := by
      apply WeightEntry.insert_last
      intro x hx
      exact (List.pairwise_append.mp hsorted).2.2 x hx e.reload List.mem_cons_self
    rw [List.map_cons, List.append_cons, ← hlast] at hsorted
    obtain ⟨w', hfold, hentries⟩ := ih hsorted h.2
    refine ⟨w', ?_, ?_⟩
    · rw [List.map_cons, List.foldlM_cons, bind_eq_ok_iff]
      exact ⟨_, bind_eq_ok_iff.mpr ⟨_, asList_reload h.1, rfl⟩, hfold⟩
    · rw [hentries, hlast, List.append_assoc]
      rfl

theorem eq_of_entries_eq {w w' : Weights} (h : w.entries = w'.entries) : w = w' := by
  cases w
  cases w'
  cases h
  rfl

theorem decode_text {w : Weights} (h : w.AllFinite) :
    (Json.readChars (w.text.toList.map some)).decode ofJson = .ok w.reload := by
  obtain ⟨w', hfold, hentries⟩ := foldlM_take (w := empty) w.sorted.reload h
  obtain rfl : w' = w.reload := eq_of_entries_eq hentries
  rw [readChars_text, Json.Document.decode, bind_eq_ok_iff]
  exact ⟨_, hfold, rfl⟩

theorem read_text {w : Weights} (h : w.AllFinite) : read w.text = .ok w.reload := decode_text h

theorem readBytes_text {w : Weights} (h : w.AllFinite) :
    readBytes (utf8 w.text) = .ok w.reload := by
  rw [readBytes, Json.readBytes, utf8_eq, Text.charsOfBytes_encode]
  exact decode_text h

/-! ### Both trips -/

theorem allFinite_reload {w : Weights} (h : w.AllFinite) : w.reload.AllFinite := by
  intro e he v hv
  obtain ⟨d, hd, rfl⟩ := List.mem_map.mp he
  obtain ⟨u, hu, rfl⟩ := List.mem_map.mp hv
  exact Binary64.isFinite_reload (h d hd u hu)

theorem lineText_reload {e : WeightEntry} (h : ∀ v ∈ e.values, v.isFinite) (last : Bool) :
    lineText e.reload last = lineText e last := by
  have hvalues : e.reload.values.map Binary64.toFixed = e.values.map Binary64.toFixed := by
    rw [WeightEntry.reload, List.map_map]
    exact List.map_congr_left fun v hv => Binary64.toFixed_reload (h v hv)
  rw [lineText, hvalues]
  rfl

theorem linesOf_reload {es : List WeightEntry} (h : ∀ e ∈ es, ∀ v ∈ e.values, v.isFinite) :
    linesOf (es.map WeightEntry.reload) = linesOf es := by
  induction es with
  | nil => rfl
  | cons e es ih =>
    rw [List.forall_mem_cons] at h
    rw [List.map_cons, linesOf, linesOf, lineText_reload h.1, ih h.2, List.isEmpty_map]

theorem text_reload {w : Weights} (h : w.AllFinite) : w.reload.text = w.text := by
  rw [text, text, parts, parts, reload, linesOf_reload h]

/-- The stores have the same uids, as many values for each, and `R` between the values. -/
def Pairs (R : Binary64 → Binary64 → Prop) (w w' : Weights) : Prop :=
  List.Forall₂ (fun e e' => e'.uid = e.uid ∧ List.Forall₂ R e.values e'.values) w.entries w'.entries

theorem pairs_reload {R : Binary64 → Binary64 → Prop} (hR : ∀ v, v.isFinite → R v v.reload)
    {w : Weights} (h : w.AllFinite) : Pairs R w w.reload := by
  refine List.forall₂_map_right_iff.mpr (List.forall₂_same.mpr fun e he => ⟨rfl, ?_⟩)
  exact List.forall₂_map_right_iff.mpr (List.forall₂_same.mpr fun v hv => hR v (h e he v hv))

/-- A store of finite values is written, as text and into any writer that has the room, and what is
    written is read as a store of the same uids and lengths, in which each value is the number
    nearest to the multiple of 10⁻⁹ that is nearest to the value it was. -/
theorem write_read {w : Weights} (h : w.AllFinite) :
    ∃ text w', toText w = (.ok (), text) ∧
      (∀ room, (utf8 text).length ≤ room → toBytes w room = (.ok (), utf8 text)) ∧
      read text = .ok w' ∧ readBytes (utf8 text) = .ok w' ∧ Pairs Binary64.IsReload w w' :=
  ⟨w.text, w.reload, toText_eq h, fun _ => toBytes_eq h, read_text h, readBytes_text h,
    pairs_reload (fun _ => Binary64.isReload_reload) h⟩

/-- Quotes, a backslash, control characters and a character of four bytes in the uids; no values,
    negative zero, the least positive number, a tenth, and a number from which on the numbers are
    further apart than 10⁻⁹. -/
def specimen : Weights :=
  (empty.insert "" []).insert "q\"\\\x01\t😀"
    [⟨0x8000000000000000⟩, ⟨1⟩, ⟨0x3FB999999999999A⟩, ⟨0x4160000010000000⟩]

theorem specimen_allFinite : specimen.AllFinite := by
  unfold AllFinite
  decide +kernel

theorem specimen_write_read :
    specimen.AllFinite ∧ ∃ text w', toText specimen = (.ok (), text) ∧
      (∀ room, (utf8 text).length ≤ room → toBytes specimen room = (.ok (), utf8 text)) ∧
      read text = .ok w' ∧ readBytes (utf8 text) = .ok w' ∧ Pairs Binary64.IsReload specimen w' :=
  ⟨specimen_allFinite, write_read specimen_allFinite⟩

/-- What is read is written as it was, byte for byte, and so read as it was; and every value of
    magnitude 2²³ or more is the value that it was from the first. -/
theorem write_read_write {w : Weights} (h : w.AllFinite) :
    ∃ text w', toText w = (.ok (), text) ∧ read text = .ok w' ∧ readBytes (utf8 text) = .ok w' ∧
      toText w' = (.ok (), text) ∧
      (∀ room, (utf8 text).length ≤ room →
        toBytes w room = (.ok (), utf8 text) ∧ toBytes w' room = (.ok (), utf8 text)) ∧
      Pairs (fun v v' => 2 ^ 23 ≤ |v.toRat| → v' = v) w w' := by
  have h' := allFinite_reload h
  have htext := text_reload h
  refine ⟨w.text, w.reload, toText_eq h, read_text h, readBytes_text h, ?_, ?_, ?_⟩
  · rw [toText_eq h', htext]
  · intro room hroom
    refine ⟨toBytes_eq h hroom, ?_⟩
    rw [toBytes_eq h' (htext ▸ hroom), htext]
  · exact pairs_reload (fun _ => Binary64.reload_of_le_abs) h

theorem specimen_write_read_write :
    ∃ text w', toText specimen = (.ok (), text) ∧ read text = .ok w' ∧
      readBytes (utf8 text) = .ok w' ∧ toText w' = (.ok (), text) ∧
      (∀ room, (utf8 text).length ≤ room →
        toBytes specimen room = (.ok (), utf8 text) ∧ toBytes w' room = (.ok (), utf8 text)) ∧
      Pairs (fun v v' => 2 ^ 23 ≤ |v.toRat| → v' = v) specimen w' :=
  write_read_write specimen_allFinite

end Weights

end EvaluatorGen
