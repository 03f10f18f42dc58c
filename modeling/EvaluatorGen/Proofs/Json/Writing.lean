import EvaluatorGen.Proofs.Json.Numbers
import EvaluatorGen.Proofs.Json.Reading

/-!
Trees written as text and read back.

1. `supplies_tokens`: the tokens of a plain tree give that tree.
2. `lexes_separated`: a list in brackets is read token by token, whatever its parts are, if each of
   them is read where a comma or a bracket follows. Only numbers need what follows.
3. `read_write`: so the text of a plain tree is read as that tree, and nothing is left of it.
-/
namespace EvaluatorGen.Json

/-- A tree that is complete and has whole numbers only, which fit in 64 bits. -/
inductive Value.Plain : Value → Prop
  | null : Plain .null
  | bool (b : Bool) : Plain (.bool b)
  | int {n : Int} (low : -2 ^ 63 ≤ n) (high : n < 2 ^ 64) : Plain (.int n)
  | string (s : String) : Plain (.string s)
  | array {items : List Value} (values : ∀ v ∈ items, Plain v) : Plain (.array items)
  | ofMembers {members : List (String × Value)} (values : ∀ m ∈ members, Plain m.2) :
    Plain (.ofMembers members)

namespace Value

theorem itemTokens_eq_map (vs : List Value) : itemTokens vs = vs.map tokens := by
  induction vs with
  | nil => rfl
  | cons v vs ih => rw [itemTokens, ih, List.map_cons]

theorem memberTokens_eq_map (ms : Members) :
    memberTokens ms = ms.map fun m => .text m.1 :: .colon :: m.2.tokens := by
  induction ms with
  | nil => rfl
  | cons m ms ih => rw [memberTokens, ih, List.map_cons]

end Value

/-! ### From tokens to the tree -/

theorem supplies_tokens {v : Value} (h : v.Plain) : Supplies v.tokens v := by
  induction h with
  | null => exact supplies_scalar .null
  | bool b => exact supplies_scalar (.bool b)
  | int => exact supplies_scalar _
  | string s => exact supplies_text s
  | array _ ih =>
    rw [Value.tokens, Value.itemTokens_eq_map]
    exact supplies_array (List.forall₂_map_left_iff.mpr (List.forall₂_same.mpr ih))
  | ofMembers _ ih =>
    rw [Value.ofMembers, Value.tokens, Value.memberTokens_eq_map, List.map_map]
    refine supplies_object ?_
    rw [List.forall₂_map_left_iff, List.forall₂_map_right_iff]
    exact List.forall₂_same.mpr fun m hm => ⟨_, rfl, ih m hm⟩

/-! ### From the text to tokens -/

section

variable (float : Binary64 → String)

theorem spell_append (ts us : List Token) :
    spell float (ts ++ us) = spell float ts ++ spell float us :=
  List.flatMap_append

/-- The tokens are read back from their characters where a number ends. -/
def Spelled (ts : List Token) : Prop := LexesClosed (spell float ts) ts

theorem lexes_separated {close : Token} (hclose : close = .closeArray ∨ close = .closeObject)
    {parts : List (List Token)} (h : ∀ part ∈ parts, Spelled float part) :
    Lexes (spell float (separated close parts)) (separated close parts) := by
  obtain ⟨c, hspell, hc, hlex⟩ : ∃ c, spell float [close] = [c] ∧
      (c = ',' ∨ c = ']' ∨ c = '\x7d') ∧ Lexes [c] [close] := by
    rcases hclose with rfl | rfl
    · exact ⟨']', rfl, .inr (.inl rfl), fun _ => rfl⟩
    · exact ⟨'\x7d', rfl, .inr (.inr rfl), fun _ => rfl⟩
  induction parts with
  | nil => rwa [separated, hspell]
  | cons part parts ih =>
    rw [List.forall_mem_cons] at h
    cases parts with
    | nil =>
      rw [separated, spell_append, hspell]
      exact h.1.append hlex hc (List.cons_ne_nil _ _)
    | cons part' parts =>
      have hcomma : Lexes [','] [.comma] := fun _ => rfl
      rw [separated, spell_append]
      · exact h.1.append (hcomma.append (ih h.2)) (.inl rfl) (List.cons_ne_nil _ _)
      · exact List.cons_ne_nil _ _

end

variable {float : Binary64 → String} {v : Value}

theorem lexes_key (s : String) : Lexes (spell float [.text (some s)]) [.text (some s)] := by
  rw [spell, List.flatMap_singleton]
  exact lexes_quote s

/-- A key, a colon and a value. -/
theorem spelled_member (key : String) {ts : List Token} (h : Spelled float ts) :
    Spelled float (.text (some key) :: .colon :: ts) := by
  have hcolon : Lexes [':'] [.colon] := fun _ => rfl
  rw [Spelled, ← List.singleton_append, spell_append]
  exact (h.prepend hcolon).prepend (lexes_key key)

theorem spelled_tokens (h : v.Plain) : Spelled float v.tokens := by
  induction h with
  | null => exact Lexes.closed fun _ => rfl
  | bool b => cases b <;> exact Lexes.closed fun _ => rfl
  | int low high =>
    rw [Spelled, Value.tokens, spell, List.flatMap_singleton]
    · exact lexesClosed_repr low high
    all_goals nofun
  | string s => exact (lexes_key s).closed
  | array _ ih =>
    rw [Value.tokens, Value.itemTokens_eq_map]
    have hopen : Lexes ['['] [.openArray] := fun _ => rfl
    exact (hopen.append (lexes_separated float (.inl rfl) (List.forall_mem_map.mpr ih))).closed
  | ofMembers _ ih =>
    rw [Value.ofMembers, Value.tokens, Value.memberTokens_eq_map, List.map_map]
    have hopen : Lexes ['\x7b'] [.openObject] := fun _ => rfl
    have hmembers := List.forall_mem_map.mpr fun m hm => spelled_member m.1 (ih m hm)
    exact (hopen.append (lexes_separated float (.inr rfl) hmembers)).closed

theorem read_ofList (cs : List Char) : read (String.ofList cs) = readChars (cs.map some) := by
  rw [read, String.toList_ofList]

theorem read_write (h : v.Plain) : read (v.write float) = { value := v } := by
  rw [Value.write, read_ofList, readChars, (spelled_tokens h).tokens_eq,
    document_of_supplies (supplies_tokens h)]

end EvaluatorGen.Json
