import EvaluatorGen.Json.Lexeme
import EvaluatorGen.Json.Quoted

/-!
Tokens of written text, and strings among them.

`Lexes text ts` says that a text is read as the tokens `ts` whatever follows it, so a longer text is
read part by part: `Lexes.append`. A number ends only where something else follows it: `LexesClosed`. A
quoted string is one token, the string: `lexes_quote`. The characters that are written as escapes are
read back one by one: `tokensFrom_quoteChar`.
-/
namespace EvaluatorGen.Json

/-! ### Parts of a text -/

/-- Between tokens the text is read as the tokens, and reading goes on between tokens. -/
def Lexes (text : List Char) (ts : List Token) : Prop :=
  ∀ rest, tokensFrom .gap (text.map some ++ rest) = ts ++ tokensFrom .gap rest

/-- What can follow a number in a text: the end of the text, a comma, or a bracket that closes. -/
def Closes : List (Option Char) → Prop
  | [] => True
  | some c :: _ => c = ',' ∨ c = ']' ∨ c = '\x7d'
  | none :: _ => False

/-- The text is read as the tokens where it cannot go on as a number. -/
def LexesClosed (text : List Char) (ts : List Token) : Prop :=
  ∀ rest, Closes rest → tokensFrom .gap (text.map some ++ rest) = ts ++ tokensFrom .gap rest

section

variable {a b : List Char} {ts us : List Token}

theorem Lexes.append (h : Lexes a ts) (h' : Lexes b us) : Lexes (a ++ b) (ts ++ us) := by
  intro rest
  rw [List.map_append, List.append_assoc, h, h', List.append_assoc]

theorem Lexes.closed (h : Lexes a ts) : LexesClosed a ts := fun rest _ => h rest

namespace LexesClosed

/-- A text that goes on with a comma or a closing bracket. -/
theorem append (h : LexesClosed a ts) (h' : Lexes b us) (hb : Closes (b.map some))
    (hne : b ≠ []) : Lexes (a ++ b) (ts ++ us) := by
  intro rest
  rw [List.map_append, List.append_assoc, List.append_assoc, h, h']
  cases b with
  | nil => exact absurd rfl hne
  | cons c b => exact hb

theorem prepend (h : LexesClosed b us) (h' : Lexes a ts) : LexesClosed (a ++ b) (ts ++ us) := by
  intro rest hrest
  rw [List.map_append, List.append_assoc, h', h rest hrest, List.append_assoc]

/-- A text is read to its end. -/
theorem tokens_eq (h : LexesClosed a ts) : tokens (a.map some) = ts := by
  have hend := h [] trivial
  rwa [List.append_nil, tokensFrom, Lexeme.finish, List.append_nil] at hend

end LexesClosed

theorem Lexes.tokens_eq (h : Lexes a ts) : tokens (a.map some) = ts := h.closed.tokens_eq

end

/-! ### Strings -/

/-- A character is no half of a surrogate pair and no stray byte. -/
theorem unit_toNat (c : Char) :
    isHighSurrogate c.toNat = false ∧ isLowSurrogate c.toNat = false ∧
      decide (strayUnit ≤ c.toNat) = false := by
  have hvalid : c.toNat < 0xD800 ∨ 0xDFFF < c.toNat ∧ c.toNat < 0x110000 := c.valid
  rw [isHighSurrogate, isLowSurrogate, ← Bool.decide_and, ← Bool.decide_and, strayUnit]
  exact ⟨decide_eq_false (by omega), decide_eq_false (by omega), decide_eq_false (by omega)⟩

theorem charOfUnit?_toNat (c : Char) : charOfUnit? c.toNat = some c := by
  obtain ⟨hhigh, hlow, hstray⟩ := unit_toNat c
  rw [charOfUnit?, hhigh, hlow, hstray, if_neg (by decide), Char.ofNat_toNat]

theorem charsOfUnits?_map_toNat (s : List Char) : charsOfUnits? (s.map Char.toNat) = some s := by
  induction s with
  | nil => rfl
  | cons c s ih =>
    cases s with
    | nil => simp [charsOfUnits?, charOfUnit?_toNat]
    | cons d s =>
      rw [List.map_cons] at ih
      rw [List.map_cons, List.map_cons, charsOfUnits?, (unit_toNat c).1, Bool.false_and,
        if_neg (by decide), charOfUnit?_toNat, ih]
      rfl

theorem tokensFrom_hex_cons {units : List Nat} {seen : List (Option Char)} {c : Char}
    (h : (some c :: seen).foldl (fun size c => size + Lexeme.byteCount c) 0 < 4)
    (rest : List (Option Char)) :
    tokensFrom (.hex units seen) (some c :: rest) =
      tokensFrom (.hex units (some c :: seen)) rest := by
  rw [tokensFrom, Lexeme.step, Lexeme.stepHex, if_pos h]
  rfl

/-- Four digits of one byte each are an escape. -/
theorem tokensFrom_hex (units : List Nat) {a b c d : Char}
    (hbytes : ∀ x ∈ [a, b, c, d], Lexeme.byteCount (some x) = 1) {u : Nat}
    (h : hexUnit? [a, b, c, d] = some u) (rest : List (Option Char)) :
    tokensFrom (.hex units []) (some a :: some b :: some c :: some d :: rest) =
      tokensFrom (.string (u :: units)) rest := by
  simp only [List.forall_mem_cons] at hbytes
  obtain ⟨ha, hb, hc, hd, -⟩ := hbytes
  rw [tokensFrom_hex_cons, tokensFrom_hex_cons, tokensFrom_hex_cons, tokensFrom, Lexeme.step,
    Lexeme.stepHex, if_neg]
  · have hunits : ([some d, some c, some b, some a].reverse.mapM id).bind hexUnit? = some u := h
    rw [hunits]
    rfl
  all_goals
    simp only [List.foldl_cons, List.foldl_nil, ha, hb, hc, hd]
    decide

/-- The digits of an escaped control character. -/
theorem hexUnit?_hexChar {n : Nat} (hn : n < 0x20) :
    hexUnit? ['0', '0', hexChar (n / 16), hexChar (n % 16)] = some n := by
  revert n
  decide

theorem byteCount_hexChar {n : Nat} (hn : n < 16) : Lexeme.byteCount (some (hexChar n)) = 1 := by
  revert n
  decide

theorem tokensFrom_quoteChar (units : List Nat) (c : Char) (rest : List (Option Char)) :
    tokensFrom (.string units) ((quoteChar c).map some ++ rest) =
      tokensFrom (.string (c.toNat :: units)) rest := by
  unfold quoteChar
  split
  case h_8 hquote hbackslash _ _ _ _ _ =>
    split
    · rename_i hcontrol
      have hbytes : ∀ x ∈ ['0', '0', hexChar (c.toNat / 16), hexChar (c.toNat % 16)],
          Lexeme.byteCount (some x) = 1 := by
        have hhigh := byteCount_hexChar (n := c.toNat / 16) (by omega)
        have hlow := byteCount_hexChar (n := c.toNat % 16) (by omega)
        simp only [List.forall_mem_cons]
        exact ⟨rfl, rfl, hhigh, hlow, nofun⟩
      exact tokensFrom_hex units hbytes (hexUnit?_hexChar hcontrol) rest
    · rename_i hhigh
      have hstep : Lexeme.stepString units c = Lexeme.goOn (.string (c.toNat :: units)) := by
        rw [Lexeme.stepString, if_neg hquote, if_neg hbackslash, if_neg hhigh]
      rw [List.map_cons, List.cons_append, tokensFrom, Lexeme.step, hstep]
      rfl
  all_goals rfl

theorem tokensFrom_flatMap_quoteChar (units : List Nat) (s : List Char)
    (rest : List (Option Char)) :
    tokensFrom (.string units) ((s.flatMap quoteChar).map some ++ rest) =
      tokensFrom (.string ((s.map Char.toNat).reverse ++ units)) rest := by
  induction s generalizing units with
  | nil => rfl
  | cons c s ih =>
    rw [List.flatMap_cons, List.map_append, List.append_assoc, tokensFrom_quoteChar, ih,
      List.map_cons, List.reverse_cons, List.append_assoc]
    rfl

theorem lexes_quote (s : String) : Lexes (quote s).toList [.text (some s)] := by
  intro rest
  rw [quote, String.toList_ofList, List.cons_append, List.map_cons, List.cons_append,
    List.map_append, List.append_assoc]
  show tokensFrom (.string []) _ = _
  rw [tokensFrom_flatMap_quoteChar, List.append_nil]
  show .text (textOfUnits? _) :: tokensFrom .gap rest = _
  rw [List.reverse_reverse, textOfUnits?, charsOfUnits?_map_toNat, Option.map_some,
    String.ofList_toList]
  rfl

end EvaluatorGen.Json
