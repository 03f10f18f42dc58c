import EvaluatorGen.Proofs.Weights.Failing
import EvaluatorGen.Proofs.Weights.RoundTrip
import Mathlib.Data.List.Dedup

/-!
Stores that were filled in different ways.

Entries come into a store by calls, one after another, or with a document, whose members may repeat a
key. In both ways the last entry of a uid counts.

1. `get?_fill`: what a store holds of a uid is the last that was put there.
2. `eq_of_get?_eq`: the entries stand in the order of their uids, so two stores that hold the same are
   the same.
3. `foldlM_take_iff`: a document is read by putting its members into the store one after another.
4. `keysIn_of_ends`: the keys of a written text are the uids of the store in their order, up to where
   the text ends.
-/
namespace EvaluatorGen

namespace WeightEntry

theorem Sorted.nodup {es : List WeightEntry} (h : Sorted es) : es.Nodup := by
  refine List.Pairwise.imp ?_ h
  rintro a _ hlt rfl
  exact String.lt_irrefl _ hlt

theorem Sorted.eq_of_perm {es es' : List WeightEntry} (h : Sorted es) (h' : Sorted es')
    (hperm : es.Perm es') : es = es' := by
  refine List.Perm.eq_of_pairwise ?_ h h' hperm
  intro a b _ _ hab hba
  exact absurd hba (String.lt_asymm hab)

end WeightEntry

namespace Weights

/-! ### Stores that hold the same -/

theorem mem_entries_iff {w : Weights} {e : WeightEntry} :
    e ∈ w.entries ↔ w.get? e.uid = some e.values := by
  rw [get?, Option.map_eq_some_iff]
  refine ⟨?_, ?_⟩
  · intro he
    cases hfind : w.entries.find? (·.uid == e.uid) with
    | none => exact absurd (List.find?_eq_none.mp hfind e he) (by simp)
    | some x =>
      have hmem := List.mem_of_find?_eq_some hfind
      have huid : x.uid = e.uid := by simpa using List.find?_some hfind
      obtain rfl : x = e := List.inj_on_of_nodup_map w.keys_nodup hmem he huid
      exact ⟨x, rfl, rfl⟩
  · rintro ⟨x, hfind, hvalues⟩
    have huid : x.uid = e.uid := by simpa using List.find?_some hfind
    obtain rfl : x = e := by
      cases x
      cases e
      cases huid
      cases hvalues
      rfl
    exact List.mem_of_find?_eq_some hfind

theorem eq_of_get?_eq {w w' : Weights} (h : ∀ uid, w.get? uid = w'.get? uid) : w = w' := by
  apply eq_of_entries_eq
  apply w.sorted.eq_of_perm w'.sorted
  rw [List.perm_ext_iff_of_nodup w.sorted.nodup w'.sorted.nodup]
  intro e
  rw [mem_entries_iff, mem_entries_iff, h]

/-! ### One entry after another -/

/-- The store with some more entries, put into it in their order. -/
def fill (w : Weights) (es : List WeightEntry) : Weights :=
  es.foldl (fun w e => w.insert e.uid e.values) w

/-- The values that the last of some entries of a uid gives it. -/
def lastValues? (es : List WeightEntry) (uid : String) : Option (List Binary64) :=
  (es.reverse.find? (·.uid == uid)).map (·.values)

theorem lastValues?_cons (e : WeightEntry) (es : List WeightEntry) (uid : String) :
    lastValues? (e :: es) uid =
      (lastValues? es uid).or (if e.uid = uid then some e.values else none) := by
  rw [lastValues?, List.reverse_cons, List.find?_append, List.find?_singleton, lastValues?]
  cases es.reverse.find? (·.uid == uid) <;> by_cases h : e.uid = uid <;> simp [h]

theorem lastValues?_isSome_iff {es : List WeightEntry} {uid : String} :
    (lastValues? es uid).isSome ↔ uid ∈ es.map (·.uid) := by
  rw [lastValues?, Option.isSome_map, List.find?_isSome, List.mem_map]
  simp

theorem get?_fill (w : Weights) (es : List WeightEntry) (uid : String) :
    (w.fill es).get? uid = (lastValues? es uid).or (w.get? uid) := by
  induction es generalizing w with
  | nil => rfl
  | cons e es ih =>
    show ((w.insert e.uid e.values).fill es).get? uid = _
    rw [ih, get?_insert, lastValues?_cons, Option.or_assoc]
    split <;> rfl

theorem keys_perm_of_get? {w : Weights} {es : List WeightEntry}
    (h : ∀ uid, w.get? uid = lastValues? es uid) : w.keys.Perm (es.map (·.uid)).dedup := by
  rw [List.perm_ext_iff_of_nodup w.keys_nodup (List.nodup_dedup _)]
  intro uid
  rw [mem_keys_iff, h, lastValues?_isSome_iff, List.mem_dedup]

/-! ### Documents -/

/-- The member of a document that holds an entry. -/
def HoldsEntry (m : Option String × Json.Value) (e : WeightEntry) : Prop :=
  m.1 = some e.uid ∧ m.2.asList Json.Value.asBinary64 = .ok e.values

/-- An object holds some entries, one in each member, in the order of the members. -/
def Holds (v : Json.Value) (es : List WeightEntry) : Prop :=
  ∃ members, v = .object members ∧ List.Forall₂ HoldsEntry members es

theorem take_ok_iff {m : Option String × Json.Value} {w w' : Weights} :
    Json.Value.foldMembers.take (fun w uid values =>
        return w.insert uid (← values.asList Json.Value.asBinary64)) w m = .ok w' ↔
      ∃ e, HoldsEntry m e ∧ w.insert e.uid e.values = w' := by
  obtain ⟨key, v⟩ := m
  unfold Json.Value.foldMembers.take HoldsEntry
  cases key with
  | none => simp
  | some key =>
    simp only [bind_eq_ok_iff, pure_eq_ok_iff, Option.some.injEq]
    refine ⟨?_, ?_⟩
    · rintro ⟨values, hv, hw⟩
      exact ⟨⟨key, values⟩, ⟨rfl, hv⟩, hw⟩
    · rintro ⟨e, ⟨rfl, hv⟩, hw⟩
      exact ⟨e.values, hv, hw⟩

/-- Members are taken as the entries that they hold. -/
theorem foldlM_take_iff {members : Json.Members} {w w' : Weights} :
    members.foldlM (Json.Value.foldMembers.take fun w uid values =>
        return w.insert uid (← values.asList Json.Value.asBinary64)) w = .ok w' ↔
      ∃ es, List.Forall₂ HoldsEntry members es ∧ w.fill es = w' := by
  induction members generalizing w with
  | nil => simp [pure_eq_ok_iff, fill]
  | cons m members ih =>
    rw [List.foldlM_cons, bind_eq_ok_iff]
    refine ⟨?_, ?_⟩
    · rintro ⟨u, hm, hms⟩
      obtain ⟨e, he, rfl⟩ := take_ok_iff.mp hm
      obtain ⟨es, hes, rfl⟩ := ih.mp hms
      exact ⟨e :: es, .cons he hes, rfl⟩
    · rintro ⟨_, hes, rfl⟩
      cases hes with
      | @cons _ e _ es he hes =>
        exact ⟨_, take_ok_iff.mpr ⟨e, he, rfl⟩, ih.mpr ⟨es, hes, rfl⟩⟩

theorem ofJson_ok_iff {v : Json.Value} {w : Weights} :
    ofJson v = .ok w ↔ ∃ es, Holds v es ∧ empty.fill es = w := by
  unfold ofJson Json.Value.foldMembers Holds
  cases v with
  | object members =>
    simp only [foldlM_take_iff, Json.Value.object.injEq, exists_eq_left']
  | cutObject members place =>
    simp [bind_eq_ok_iff]
  | _ => simp

/-- A document that is read holds entries, and the store is filled with them. -/
theorem decode_ok_iff {d : Json.Document} {w : Weights} :
    d.decode ofJson = .ok w ↔ d.surplus = false ∧ ∃ es, Holds d.value es ∧ empty.fill es = w := by
  rw [Json.Document.decode, bind_eq_ok_iff, ← ofJson_ok_iff]
  cases d.surplus <;> simp [pure_eq_ok_iff]

/-! ### The keys of a text -/

/-- The string that a token is. -/
def keyOf? : Json.Token → Option String
  | .text key => key
  | _ => none

/-- The strings in a JSON text, in their order. In what is written of a store, only keys are
    strings. -/
def keysIn (text : String) : List String := (Json.tokens (text.toList.map some)).filterMap keyOf?

theorem filterMap_separated {close : Json.Token} (hclose : keyOf? close = none)
    (parts : List (List Json.Token)) :
    (Json.separated close parts).filterMap keyOf? = parts.flatMap (·.filterMap keyOf?) := by
  fun_induction Json.separated close parts with
  | case1 => simp [hclose]
  | case2 part => simp [hclose]
  | case3 part parts _ ih =>
    rw [List.filterMap_append, List.filterMap_cons_none rfl, ih, List.flatMap_cons]

theorem filterMap_tokensOfMember (e : WeightEntry) :
    (Json.tokensOfMember (itemOf e)).filterMap keyOf? = [e.uid] := by
  have hitems : (Json.tokensOfItems (itemOf e).2).filterMap keyOf? = [] := by
    rw [Json.tokensOfItems, filterMap_separated rfl, List.flatMap_map]
    exact List.flatMap_eq_nil_iff.mpr fun _ _ => rfl
  show e.uid :: (Json.tokensOfItems (itemOf e).2).filterMap keyOf? = _
  rw [hitems]

theorem keysIn_text (w : Weights) : keysIn w.text = w.keys := by
  rw [keysIn, (lexes_text w).tokens_eq, List.filterMap_cons_none rfl, Json.tokensOfMembers,
    filterMap_separated rfl, List.flatMap_map, List.flatMap_map, keys, List.map_eq_flatMap]
  exact List.flatMap_congr fun e _ => filterMap_tokensOfMember e

theorem lexes_lines (es : List WeightEntry) :
    Json.Lexes ((es.map (lineText · false)).flatMap String.toList)
      (es.flatMap fun e => Json.tokensOfMember (itemOf e) ++ [.comma]) := by
  induction es with
  | nil => exact fun _ => rfl
  | cons e es ih => exact (lexes_lineText e false).append ih

theorem keysIn_linesBefore (w : Weights) (uid : String) :
    keysIn (String.join ("\x7b\n" :: w.linesBefore uid)) =
      (w.entries.filter fun e => utf8 e.uid < utf8 uid).map (·.uid) := by
  have hopen : Json.Lexes "\x7b\n".toList [.openObject] := fun _ => rfl
  have hlex := hopen.append (lexes_lines (w.entries.filter fun e => utf8 e.uid < utf8 uid))
  rw [keysIn, String.toList_join, List.flatMap_cons, linesBefore, hlex.tokens_eq, List.singleton_append,
    List.filterMap_cons_none rfl, List.filterMap_flatMap, List.map_eq_flatMap]
  refine List.flatMap_congr fun e _ => ?_
  rw [List.filterMap_append, filterMap_tokensOfMember]
  rfl

/-- The keys of what is written are uids of the store in their order, and all of them if nothing
    fails. -/
theorem keysIn_of_ends {w : Weights} {outcome : Except WeightError Unit} {text : String}
    (h : w.Ends outcome text) :
    (keysIn text).Sublist w.keys ∧ (outcome = .ok () → keysIn text = w.keys) := by
  cases h with
  | whole h => exact ⟨keysIn_text w ▸ List.Sublist.refl _, fun _ => keysIn_text w⟩
  | stopped h =>
    rw [keysIn_linesBefore]
    exact ⟨List.filter_sublist.map _, nofun⟩

/-! ### Stores and their entries -/

/-- The ways in which some entries come into a store, one after another: by calls, or with a document
    that is read, and further calls. -/
inductive Filled : List WeightEntry → Weights → Prop where
  | empty : Filled [] Weights.empty
  | insert {es : List WeightEntry} {w : Weights} (before : Filled es w) (uid : String)
      (values : List Binary64) : Filled (es ++ [⟨uid, values⟩]) (w.insert uid values)
  | read {text : String} {es : List WeightEntry} {w : Weights}
      (holds : Holds (Json.read text).value es) (read : Weights.read text = .ok w) : Filled es w
  | readBytes {bytes : List UInt8} {es : List WeightEntry} {w : Weights}
      (holds : Holds (Json.readBytes bytes).value es) (read : Weights.readBytes bytes = .ok w) :
      Filled es w

theorem HoldsEntry.unique {m : Option String × Json.Value} {e e' : WeightEntry}
    (h : HoldsEntry m e) (h' : HoldsEntry m e') : e = e' := by
  obtain ⟨huid, hvalues⟩ := h
  obtain ⟨huid', hvalues'⟩ := h'
  rw [huid] at huid'
  rw [hvalues] at hvalues'
  cases e
  cases e'
  cases huid'
  cases hvalues'
  rfl

theorem Holds.unique {v : Json.Value} {es es' : List WeightEntry} (h : Holds v es)
    (h' : Holds v es') : es = es' := by
  obtain ⟨members, rfl, hes⟩ := h
  obtain ⟨members', hmembers, hes'⟩ := h'
  cases hmembers
  exact List.right_unique_forall₂' (fun _ _ _ he he' => he.unique he') hes hes'

theorem eq_fill_of_decode {d : Json.Document} {es : List WeightEntry} {w : Weights}
    (holds : Holds d.value es) (h : d.decode ofJson = .ok w) : empty.fill es = w := by
  obtain ⟨-, es', holds', hfill⟩ := decode_ok_iff.mp h
  rwa [holds.unique holds']

theorem Filled.eq_fill {es : List WeightEntry} {w : Weights} (h : Filled es w) :
    Weights.empty.fill es = w := by
  induction h with
  | empty => rfl
  | insert _ uid values ih =>
    rw [fill, List.foldl_append]
    exact congrArg (fun w => w.insert uid values) ih
  | read holds h => exact eq_fill_of_decode holds h
  | readBytes holds h => exact eq_fill_of_decode holds h

theorem Filled.get? {es : List WeightEntry} {w : Weights} (h : Filled es w) (uid : String) :
    w.get? uid = lastValues? es uid := by
  rw [← h.eq_fill, get?_fill, get?_empty, Option.or_none]

/-- A store is determined by the values that were last put there for each uid: these it holds, and no
    others, and it is the same store, written in the same way, whatever was there before and in
    whatever order it came. It has as many entries as different uids came. Its text has them in the
    order of their bytes, and all of them if it is written to its end. Every document that is read
    holds entries, which come in its order. -/
theorem filled_canonical {es es' : List WeightEntry} {w w' : Weights} (h : Filled es w)
    (h' : Filled es' w') :
    (∀ uid, w.get? uid = lastValues? es uid) ∧
    w.size = (es.map (·.uid)).dedup.length ∧
    ((∀ uid, lastValues? es uid = lastValues? es' uid) →
      w = w' ∧ toText w = toText w' ∧ ∀ room, toBytes w room = toBytes w' room) ∧
    ((keysIn (toText w).2).Pairwise fun a b => utf8 a < utf8 b) ∧
    ((toText w).1 = .ok () → (keysIn (toText w).2).Perm (es.map (·.uid)).dedup) ∧
    (∀ text u, read text = .ok u → ∃ es, Holds (Json.read text).value es) ∧
    ∀ bytes u, readBytes bytes = .ok u → ∃ es, Holds (Json.readBytes bytes).value es := by
  have hkeys := keys_perm_of_get? h.get?
  obtain ⟨outcome, text, hends⟩ := exists_ends w
  obtain ⟨hsublist, hall⟩ := keysIn_of_ends hends
  have htext := toText_of_ends hends
  refine ⟨h.get?, ?_, ?_, ?_, ?_, ?_, ?_⟩
  · rw [← hkeys.length_eq, keys, List.length_map, size]
  · intro hlast
    obtain rfl : w = w' := eq_of_get?_eq fun uid => by rw [h.get?, h'.get?, hlast]
    exact ⟨rfl, rfl, fun _ => rfl⟩
  · rw [htext]
    refine List.Pairwise.sublist hsublist (List.pairwise_map.mpr ?_)
    exact w.sorted.imp utf8_lt_iff.mpr
  · rw [htext]
    intro hok
    rw [hall hok]
    exact hkeys
  · intro text u hu
    obtain ⟨-, es, holds, -⟩ := decode_ok_iff.mp hu
    exact ⟨es, holds⟩
  · intro bytes u hu
    obtain ⟨-, es, holds, -⟩ := decode_ok_iff.mp hu
    exact ⟨es, holds⟩

/-- A store in which the values of a uid were replaced after another uid had come. -/
def replaced : Weights :=
  ((empty.insert "b" [⟨0x7FF8000000000000⟩]).insert "a" [⟨0x4000000000000000⟩]).insert
    "b" [⟨0x3FF0000000000000⟩]

/-- A document that repeats a key, and whose last members are what `replaced` holds. -/
def repeatedKey : String := "\x7b\"b\": [9], \"b\": [1.0], \"a\": [2]\x7d"

theorem replaced_canonical :
    ∃ es es' w, Filled es replaced ∧ Filled es' w ∧ es ≠ es' ∧ read repeatedKey = .ok w ∧
      replaced = w ∧ toText replaced = toText w ∧ replaced.size = 2 := by
  obtain ⟨w, hread⟩ : ∃ w, read repeatedKey = .ok w := ⟨replaced, by decide +kernel⟩
  have hcalls := ((Filled.empty.insert "b" [⟨0x7FF8000000000000⟩]).insert
    "a" [⟨0x4000000000000000⟩]).insert "b" [⟨0x3FF0000000000000⟩]
  have hdocument : Filled [⟨"b", [⟨0x4022000000000000⟩]⟩, ⟨"b", [⟨0x3FF0000000000000⟩]⟩,
      ⟨"a", [⟨0x4000000000000000⟩]⟩] w := by
    refine .read ⟨_, rfl, .cons ⟨rfl, ?_⟩ (.cons ⟨rfl, ?_⟩ (.cons ⟨rfl, ?_⟩ .nil))⟩ hread
    · decide +kernel
    · decide +kernel
    · decide +kernel
  obtain ⟨-, hsize, hsame, -⟩ := filled_canonical hcalls hdocument
  obtain ⟨hw, htext, -⟩ := hsame fun uid => by
    simp only [lastValues?_cons, List.nil_append, List.cons_append]
    by_cases ha : "a" = uid
    · subst ha
      rfl
    · by_cases hb : "b" = uid
      · subst hb
        rfl
      · simp [ha, hb]
  exact ⟨_, _, w, hcalls, hdocument, by decide, hread, hw, htext, hsize⟩

end Weights

end EvaluatorGen
