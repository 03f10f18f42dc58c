import EvaluatorGen.Proofs.Text.Utf8
import EvaluatorGen.Proofs.Weights.Writing

/-!
What a failing write leaves behind.

Two things end a write: a value that is not finite, and a writer that is full.

1. `write_eq_throw`: up to the first entry with such a value, its parts are written one after
   another, and nothing after them.
2. `exists_ends`: every store ends in one of the two ways of `Ends`, which say what is written of
   it and what comes of it where there is room.
3. `toBytes_of_ends`: with any room, as much is written of that text as there is room for, and a
   full writer is reported before the value is.
-/
namespace EvaluatorGen.Weights

theorem utf8_lt_iff {a b : String} : utf8 a < utf8 b ↔ a < b := by
  rw [utf8_eq, utf8_eq, Text.encode_lt_iff]
  exact Iff.rfl

/-- Writing ends at a value of an entry: the first of its values that is not finite, in the first
    entry that has such a value. Entries are written in the order of the bytes of their uids. -/
structure StopsAt (w : Weights) (bad : WeightEntry) (index : Nat) : Prop where
  mem : bad ∈ w.entries
  not_finite : ∃ v, bad.values[index]? = some v ∧ v.isFinite = false
  finite_before : ∀ j < index, ∀ v, bad.values[j]? = some v → v.isFinite
  entries_before : ∀ e ∈ w.entries, utf8 e.uid < utf8 bad.uid → ∀ v ∈ e.values, v.isFinite

/-- The lines of the entries before a uid, which is the uid of an entry as well. -/
def linesBefore (w : Weights) (uid : String) : List String :=
  (w.entries.filter fun e => utf8 e.uid < utf8 uid).map (lineText · false)

/-- What comes of a store and what is written of it, where there is room. -/
inductive Ends (w : Weights) : Except WeightError Unit → String → Prop
  | whole (h : w.AllFinite) : Ends w (.ok ()) w.text
  | stopped {bad : WeightEntry} {index : Nat} (h : w.StopsAt bad index) :
    Ends w (.error (.nonFinite bad.uid index)) (String.join ("\x7b\n" :: w.linesBefore bad.uid))

/-! ### The entry that ends a write -/

theorem nonFinite?_eq_some_iff {values : List Binary64} {index : Nat} :
    nonFinite? values = some index ↔
      (∃ v, values[index]? = some v ∧ v.isFinite = false) ∧
        ∀ j < index, ∀ v, values[j]? = some v → v.isFinite := by
  rw [nonFinite?, List.findIdx?_eq_some_iff_getElem]
  constructor
  · intro h
    obtain ⟨hlt, hbad, hbefore⟩ := h
    refine ⟨⟨values[index], List.getElem?_eq_getElem hlt, by simpa using hbad⟩, ?_⟩
    intro j hj v hv
    obtain ⟨hjlt, rfl⟩ := List.getElem?_eq_some_iff.mp hv
    simpa using hbefore j hj
  · intro h
    obtain ⟨⟨v, hv, hbad⟩, hbefore⟩ := h
    obtain ⟨hlt, rfl⟩ := List.getElem?_eq_some_iff.mp hv
    refine ⟨hlt, by simpa using hbad, ?_⟩
    intro j hj
    simpa using hbefore j hj _ (List.getElem?_eq_getElem (Nat.lt_trans hj hlt))

theorem finite_of_nonFinite?_eq_none {values : List Binary64} (h : nonFinite? values = none) :
    ∀ v ∈ values, v.isFinite := by
  intro v hv
  rw [nonFinite?, List.findIdx?_eq_none_iff] at h
  simpa using h v hv

section

variable {w : Weights} {before after : List WeightEntry} {bad e : WeightEntry}

theorem lt_of_mem_before (hsplit : w.entries = before ++ bad :: after) (he : e ∈ before) :
    utf8 e.uid < utf8 bad.uid := by
  have hsorted : WeightEntry.Sorted (before ++ bad :: after) := hsplit ▸ w.sorted
  exact utf8_lt_iff.mpr ((List.pairwise_append.mp hsorted).2.2 e he bad List.mem_cons_self)

theorem not_lt_of_mem_from (hsplit : w.entries = before ++ bad :: after)
    (he : e ∈ bad :: after) : ¬ utf8 e.uid < utf8 bad.uid := by
  have hsorted : WeightEntry.Sorted (before ++ bad :: after) := hsplit ▸ w.sorted
  have htail := List.pairwise_cons.mp (List.pairwise_append.mp hsorted).2.1
  rw [utf8_lt_iff, String.not_lt]
  cases he with
  | head => exact String.le_refl _
  | tail _ he => exact String.not_lt.mp (String.lt_asymm (htail.1 e he))

theorem linesBefore_of_split (hsplit : w.entries = before ++ bad :: after) :
    w.linesBefore bad.uid = before.map (lineText · false) := by
  have hbefore : before.filter (fun e => utf8 e.uid < utf8 bad.uid) = before := by
    rw [List.filter_eq_self]
    intro e he
    exact decide_eq_true (lt_of_mem_before hsplit he)
  have hfrom : (bad :: after).filter (fun e => utf8 e.uid < utf8 bad.uid) = [] := by
    rw [List.filter_eq_nil_iff]
    intro e he
    simpa using not_lt_of_mem_from hsplit he
  rw [linesBefore, hsplit, List.filter_append, hbefore, hfrom, List.append_nil]

end

/-- The entries before the one that ends the write, and those after it. -/
theorem StopsAt.split {w : Weights} {bad : WeightEntry} {index : Nat} (h : w.StopsAt bad index) :
    ∃ before after, w.entries = before ++ bad :: after ∧
      (∀ e ∈ before, ∀ v ∈ e.values, v.isFinite) ∧ nonFinite? bad.values = some index := by
  obtain ⟨before, after, hsplit⟩ := List.append_of_mem h.mem
  refine ⟨before, after, hsplit, ?_, nonFinite?_eq_some_iff.mpr ⟨h.not_finite, h.finite_before⟩⟩
  intro e he
  refine h.entries_before e ?_ (lt_of_mem_before hsplit he)
  rw [hsplit]
  exact List.mem_append_left _ he

theorem exists_ends (w : Weights) : ∃ outcome text, w.Ends outcome text := by
  cases hfind : w.entries.find? (fun e => (nonFinite? e.values).isSome) with
  | none =>
    refine ⟨_, _, .whole fun e he => finite_of_nonFinite?_eq_none ?_⟩
    simpa using List.find?_eq_none.mp hfind e he
  | some bad =>
    obtain ⟨hbad, before, after, hsplit, hbefore⟩ := List.find?_eq_some_iff_append.mp hfind
    obtain ⟨index, hindex⟩ := Option.isSome_iff_exists.mp hbad
    obtain ⟨hvalue, hvalues⟩ := nonFinite?_eq_some_iff.mp hindex
    refine ⟨_, _, @Ends.stopped w bad index ⟨?_, hvalue, hvalues, ?_⟩⟩
    · rw [hsplit]
      exact List.mem_append_right _ List.mem_cons_self
    · intro e he hlt
      rw [hsplit, List.mem_append] at he
      have hmem : e ∈ before := he.resolve_right fun hfrom => not_lt_of_mem_from hsplit hfrom hlt
      exact finite_of_nonFinite?_eq_none (by simpa using hbefore e hmem)

/-! ### Writing up to that entry -/

theorem writeEntries_eq_throw {σ : Type} (put : String → Writing σ Unit)
    {before after : List WeightEntry} {bad : WeightEntry} {index : Nat}
    (hbefore : ∀ e ∈ before, ∀ v ∈ e.values, v.isFinite)
    (hbad : nonFinite? bad.values = some index) :
    writeEntries put (before ++ bad :: after) =
      ((before.map (lineText · false)).forM put >>= fun _ =>
        throw (.nonFinite bad.uid index)) := by
  induction before with
  | nil =>
    rw [List.nil_append, writeEntries, writeEntry, hbad]
    rfl
  | cons e before ih =>
    rw [List.forall_mem_cons] at hbefore
    have hlast : (before ++ bad :: after).isEmpty = false := by simp
    have hline : writeEntry put e false = put (lineText e false) := by
      rw [writeEntry, nonFinite?_eq_none hbefore.1]
    have hforM : ((e :: before).map (lineText · false)).forM put =
        (put (lineText e false) >>= fun _ => (before.map (lineText · false)).forM put) := rfl
    rw [List.cons_append, writeEntries, hlast, hline, ih hbefore.2, hforM, bind_assoc]

theorem write_eq_throw {σ : Type} (put : String → Writing σ Unit) {w : Weights}
    {bad : WeightEntry} {index : Nat} (h : w.StopsAt bad index) :
    write put w =
      (("\x7b\n" :: w.linesBefore bad.uid).forM put >>= fun _ =>
        throw (.nonFinite bad.uid index)) := by
  obtain ⟨before, after, hsplit, hbefore, hbad⟩ := h.split
  have hforM : ("\x7b\n" :: w.linesBefore bad.uid).forM put =
      (put "\x7b\n" >>= fun _ => (w.linesBefore bad.uid).forM put) := rfl
  rw [hforM, linesBefore_of_split hsplit, write, hsplit, writeEntries_eq_throw put hbefore hbad]
  simp only [bind_assoc]
  rfl

/-- Where nothing limits the writer, a store is written as it ends. -/
theorem toText_of_ends {w : Weights} {outcome : Except WeightError Unit} {text : String}
    (h : w.Ends outcome text) : toText w = (outcome, text) := by
  cases h with
  | whole h => exact toText_eq h
  | @stopped bad index h =>
    have hbind : (("\x7b\n" :: w.linesBefore bad.uid).forM appendText >>= fun _ =>
          (throw (.nonFinite bad.uid index) : Writing String Unit)).run.run "" =
        (ExceptT.bindCont (fun _ => (throw (.nonFinite bad.uid index) : Writing String Unit))
          ((("\x7b\n" :: w.linesBefore bad.uid).forM appendText).run.run "").1).run
          ((("\x7b\n" :: w.linesBefore bad.uid).forM appendText).run.run "").2 := rfl
    rw [toText, write_eq_throw appendText h, hbind, forM_appendText, String.empty_append]
    rfl

/-! ### With limited room -/

/-- The lines of a store are in the order of the bytes of the uids, and every store ends in one of
    two ways: all of it is written, or what stands before the first value that is not finite. A
    writer of any room gets as much of that as it has room for. Where it is full first, that is the
    failure; else the store's own outcome comes of it. -/
theorem toBytes_of_ends (w : Weights) :
    (w.entries.Pairwise fun a b => utf8 a.uid < utf8 b.uid) ∧
      (∃ outcome text, w.Ends outcome text) ∧
      ∀ outcome text, w.Ends outcome text → ∀ room, toBytes w room =
        if (utf8 text).length ≤ room then (outcome, utf8 text)
        else (.error .noRoom, (utf8 text).take room) := by
  refine ⟨w.sorted.imp utf8_lt_iff.mpr, exists_ends w, ?_⟩
  intro outcome text hends room
  cases hends with
  | whole h => exact toBytes_of_allFinite h room
  | stopped h => exact toBytes_of_write (write_eq_throw Sink.put h) room

/-- The second of three entries has a value that is not a number behind a finite one, and the
    third has an infinite value that is not reached. -/
def spoilt : Weights :=
  ((empty.insert "b" [⟨0x3FF0000000000000⟩, ⟨0x7FF8000000000000⟩]).insert
    "é" [⟨0x7FF0000000000000⟩]).insert "a" [⟨0x3FF0000000000000⟩]

theorem spoilt_toBytes :
    spoilt.Ends (.error (.nonFinite "b" 1)) "\x7b\n    \"a\": [1.000000000],\n" ∧
      ∀ room, toBytes spoilt room =
        if (utf8 "\x7b\n    \"a\": [1.000000000],\n").length ≤ room then
          (.error (.nonFinite "b" 1), utf8 "\x7b\n    \"a\": [1.000000000],\n")
        else (.error .noRoom, (utf8 "\x7b\n    \"a\": [1.000000000],\n").take room) := by
  have hstops : spoilt.StopsAt
      ⟨"b", [⟨0x3FF0000000000000⟩, ⟨0x7FF8000000000000⟩]⟩ 1 := by
    refine ⟨by decide +kernel, ⟨_, rfl, by decide⟩, ?_, by decide +kernel⟩
    intro j hj v hv
    obtain rfl : j = 0 := Nat.lt_one_iff.mp hj
    cases hv
    decide
  have htext : String.join ("\x7b\n" :: spoilt.linesBefore "b") =
      "\x7b\n    \"a\": [1.000000000],\n" := by decide +kernel
  have hends := Ends.stopped hstops
  rw [htext] at hends
  exact ⟨hends, (toBytes_of_ends spoilt).2.2 _ _ hends⟩

end EvaluatorGen.Weights
