import EvaluatorGen.Proofs.Json.Numbers
import EvaluatorGen.Proofs.Json.Reading
import EvaluatorGen.Weights.Text

/-!
What is written of a weight store.

1. `write_eq`: a store of finite values is written part by part, with no failure. So all of it is
   written where there is room for all of it: `toText_eq`, `toBytes_eq`.
2. `lexes_text`: the parts together are an object with one array of numbers for each entry.
-/
namespace EvaluatorGen.Weights

open Json

/-! ### Writing -/

/-- The lines of some entries; all but the last end with a comma. -/
def linesOf : List WeightEntry → List String
  | [] => []
  | e :: es => lineText e es.isEmpty :: linesOf es

/-- The texts that a store is written as, one after another. -/
def parts (w : Weights) : List String := "\x7b\n" :: linesOf w.entries ++ ["\x7d\n"]

/-- What is written of a store where nothing fails. -/
def text (w : Weights) : String := String.join w.parts

/-- A store without infinities and patterns that are not numbers. -/
def AllFinite (w : Weights) : Prop := ∀ e ∈ w.entries, ∀ v ∈ e.values, v.isFinite

theorem nonFinite?_eq_none {values : List Binary64} (h : ∀ v ∈ values, v.isFinite) :
    nonFinite? values = none := by
  rw [nonFinite?, List.findIdx?_eq_none_iff]
  intro v hv
  rw [h v hv]
  rfl

section

variable {m : Type → Type} [Monad m] [MonadExceptOf WeightError m]

theorem writeEntries_eq (put : String → m Unit) {es : List WeightEntry}
    (h : ∀ e ∈ es, ∀ v ∈ e.values, v.isFinite) : writeEntries put es = (linesOf es).forM put := by
  induction es with
  | nil => rfl
  | cons e es ih =>
    rw [List.forall_mem_cons] at h
    rw [writeEntries, writeEntry, nonFinite?_eq_none h.1, ih h.2]
    rfl

theorem write_eq [LawfulMonad m] (put : String → m Unit) {w : Weights} (h : w.AllFinite) :
    write put w = w.parts.forM put := by
  rw [write, writeEntries_eq put h, parts]
  simp [List.forM_append]

end

theorem forM_appendText (texts : List String) (s : String) :
    (texts.forM appendText).run.run s = (.ok (), s ++ String.join texts) := by
  induction texts generalizing s with
  | nil =>
    rw [String.join_nil, String.append_empty]
    rfl
  | cons t texts ih =>
    rw [String.join_cons, ← String.append_assoc]
    exact ih (s ++ t)

theorem toText_eq {w : Weights} (h : w.AllFinite) : toText w = (.ok (), w.text) := by
  rw [toText, write_eq appendText h, forM_appendText, String.empty_append]
  rfl

example :
    (toText ((empty.insert "" []).insert "q\"\\\x01\t"
      [⟨0x8000000000000000⟩, ⟨0x3FB999999999999A⟩, ⟨0x4160000010000000⟩])).2 =
    "\x7b\n    \"\": [],\n    \"q\\\"\\\\\\u0001\\t\": " ++
      "[-0.000000000, 0.100000000, 8388608.500000000]\n\x7d\n" := by
  decide +kernel

theorem utf8_eq (text : String) : utf8 text = text.toList.flatMap String.utf8EncodeChar := by
  rw [utf8, String.toUTF8, ← String.utf8Encode_toList]
  exact List.toList_data_toByteArray

theorem utf8_append (a b : String) : utf8 (a ++ b) = utf8 a ++ utf8 b := by
  rw [utf8_eq, utf8_eq, utf8_eq, String.toList_append, List.flatMap_append]

theorem utf8_empty : utf8 "" = [] := by
  rw [utf8_eq, String.toList_empty, List.flatMap_nil]

theorem put_run (t : String) (room : Nat) (written : List UInt8) :
    (Sink.put t).run.run ⟨room, written⟩ =
      (if room < (utf8 t).length then .error .noRoom else .ok (),
        ⟨room - (utf8 t).length, written ++ (utf8 t).take room⟩) := by
  show (if room < (utf8 t).length then throw WeightError.noRoom else pure () :
    Writing Sink Unit).run.run ⟨room - (utf8 t).length, written ++ (utf8 t).take room⟩ = _
  split <;> rfl

/-- As many of the bytes of some texts are written as there is room for. -/
theorem forM_put (texts : List String) (room : Nat) (written : List UInt8) :
    (texts.forM Sink.put).run.run ⟨room, written⟩ =
      (if (utf8 (String.join texts)).length ≤ room then .ok () else .error .noRoom,
        ⟨room - (utf8 (String.join texts)).length,
          written ++ (utf8 (String.join texts)).take room⟩) := by
  induction texts generalizing room written with
  | nil =>
    rw [String.join_nil, utf8_empty, List.take_nil, List.append_nil]
    rfl
  | cons t texts ih =>
    have hcons : ((t :: texts).forM Sink.put).run.run ⟨room, written⟩ =
        (ExceptT.bindCont (fun _ => texts.forM Sink.put)
          ((Sink.put t).run.run ⟨room, written⟩).1).run
          ((Sink.put t).run.run ⟨room, written⟩).2 := rfl
    rw [hcons, put_run, String.join_cons, utf8_append, List.length_append, List.take_append,
      ← Nat.sub_sub, ← List.append_assoc]
    by_cases hroom : room < (utf8 t).length
    · -- Nothing is left for what follows.
      have hnone : room - (utf8 t).length = 0 := Nat.sub_eq_zero_of_le (Nat.le_of_lt hroom)
      have hall : ¬ (utf8 t).length + (utf8 (String.join texts)).length ≤ room := by omega
      rw [if_pos hroom, if_neg hall, hnone, List.take_zero, List.append_nil, Nat.zero_sub]
      rfl
    · have hiff : (utf8 (String.join texts)).length ≤ room - (utf8 t).length ↔
          (utf8 t).length + (utf8 (String.join texts)).length ≤ room := by omega
      rw [if_neg hroom]
      simp only [← hiff]
      exact ih (room - (utf8 t).length) (written ++ (utf8 t).take room)

/-- A store that is written as some texts and then has an outcome. A writer of any room gets as much
    of the texts as it has room for; the outcome counts if it had room for all of them. -/
theorem toBytes_of_write {w : Weights} {texts : List String} {outcome : Except WeightError Unit}
    (h : write Sink.put w =
      (texts.forM Sink.put >>= fun _ => (ExceptT.mk (pure outcome) : Writing Sink Unit)))
    (room : Nat) :
    toBytes w room =
      if (utf8 (String.join texts)).length ≤ room then (outcome, utf8 (String.join texts))
      else (.error .noRoom, (utf8 (String.join texts)).take room) := by
  have hbind : (texts.forM Sink.put >>= fun _ => (ExceptT.mk (pure outcome) :
      Writing Sink Unit)).run.run ⟨room, []⟩ =
      (ExceptT.bindCont (fun _ => (ExceptT.mk (pure outcome) : Writing Sink Unit))
        ((texts.forM Sink.put).run.run ⟨room, []⟩).1).run
        ((texts.forM Sink.put).run.run ⟨room, []⟩).2 := rfl
  rw [toBytes, h, hbind, forM_put, List.nil_append]
  by_cases hroom : (utf8 (String.join texts)).length ≤ room
  · rw [if_pos hroom, if_pos hroom, List.take_of_length_le hroom]
    rfl
  · rw [if_neg hroom, if_neg hroom]
    rfl

theorem toBytes_of_allFinite {w : Weights} (h : w.AllFinite) (room : Nat) :
    toBytes w room =
      if (utf8 w.text).length ≤ room then (.ok (), utf8 w.text)
      else (.error .noRoom, (utf8 w.text).take room) := by
  have hwrite : write Sink.put w =
      (w.parts.forM Sink.put >>= fun _ => (ExceptT.mk (pure (.ok ())) : Writing Sink Unit)) := by
    rw [write_eq Sink.put h]
    exact (bind_pure (w.parts.forM Sink.put)).symm
  exact toBytes_of_write hwrite room

theorem toBytes_eq {w : Weights} (h : w.AllFinite) {room : Nat}
    (hroom : (utf8 w.text).length ≤ room) : toBytes w room = (.ok (), utf8 w.text) := by
  rw [toBytes_of_allFinite h, if_pos hroom]

/-! ### Tokens -/

/-- The uid of an entry and its values as they are read. -/
def itemOf (e : WeightEntry) : String × List Value :=
  (e.uid, e.values.map fun v => .float v.reload)

theorem lexes_values (values : List Binary64) :
    Lexes ((", ".intercalate (values.map Binary64.toFixed)).toList ++ [']'])
      (tokensOfItems (values.map fun v => .float v.reload)) := by
  have hclose : Lexes [']'] [.closeArray] := fun _ => rfl
  rw [String.toList_intercalate]
  induction values with
  | nil => exact hclose
  | cons v values ih =>
    cases values with
    | nil =>
      rw [List.map_singleton, List.map_singleton, List.intercalate_singleton]
      exact (lexesClosed_toFixed v).append hclose (.inr (.inl rfl)) (List.cons_ne_nil _ _)
    | cons u values =>
      have hcomma : Lexes [',', ' '] [.comma] := fun _ => rfl
      have hall := ((lexesClosed_toFixed v).append hcomma (.inl rfl) (List.cons_ne_nil _ _)).append
        ih
      rw [List.append_assoc, List.append_assoc] at hall
      rw [List.map_cons, List.map_cons, List.map_cons, List.map_cons, List.intercalate_cons_cons,
        List.append_assoc, List.append_assoc]
      exact hall

theorem lexes_lineText (e : WeightEntry) (last : Bool) :
    Lexes (lineText e last).toList
      (tokensOfMember (itemOf e) ++ if last then [] else [.comma]) := by
  have hindent : Lexes "    ".toList [] := fun _ => rfl
  have hopen : Lexes ": [".toList [.colon, .openArray] := fun _ => rfl
  have hcomma : Lexes (if last then "" else ",").toList (if last then [] else [.comma]) := by
    cases last <;> exact fun _ => rfl
  have hend : Lexes "\n".toList [] := fun _ => rfl
  have hall := ((((hindent.append (lexes_quote e.uid)).append hopen).append
    (lexes_values e.values)).append hcomma).append hend
  have htext : (lineText e last).toList =
      "    ".toList ++ (quote e.uid).toList ++ ": [".toList ++
        ((", ".intercalate (e.values.map Binary64.toFixed)).toList ++ [']']) ++
        (if last then "" else ",").toList ++ "\n".toList := by
    simp only [lineText, String.toList_append, List.append_assoc]
    rfl
  rw [htext]
  rw [List.append_nil] at hall
  exact hall

theorem lexes_linesOf (es : List WeightEntry) :
    Lexes ((linesOf es).flatMap String.toList ++ "\x7d\n".toList)
      (tokensOfMembers (es.map itemOf)) := by
  induction es with
  | nil => exact fun _ => rfl
  | cons e es ih =>
    have hall := (lexes_lineText e es.isEmpty).append ih
    rw [linesOf, List.flatMap_cons, List.append_assoc]
    cases es with
    | nil =>
      rw [List.isEmpty_nil, if_pos rfl, List.append_nil] at hall
      exact hall
    | cons e' es =>
      rw [List.isEmpty_cons, if_neg Bool.false_ne_true, List.append_assoc] at hall
      exact hall

theorem lexes_text (w : Weights) :
    Lexes w.text.toList (.openObject :: tokensOfMembers (w.entries.map itemOf)) := by
  have hopen : Lexes "\x7b\n".toList [.openObject] := fun _ => rfl
  have htext : w.text.toList =
      "\x7b\n".toList ++ ((linesOf w.entries).flatMap String.toList ++ "\x7d\n".toList) := by
    rw [text, parts, String.toList_join, List.cons_append, List.flatMap_cons, List.flatMap_append,
      List.flatMap_singleton]
  rw [htext]
  exact hopen.append (lexes_linesOf w.entries)

end EvaluatorGen.Weights
