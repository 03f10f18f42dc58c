import EvaluatorGen.Proofs.Identifiers
import EvaluatorGen.Proofs.Text.Line

/-!
The tokens of a line.

A word is as long as it can be, any other character that is not blank is a token of its own. So a
name that is part of a longer one is no token.

1. `tokens_append`: two texts have the tokens of both, if no word goes from one into the other.
2. `tokens_literal_append` and `tokens_word_append`: a line that is written as literals with names
   between them is read off from left to right.
-/
namespace EvaluatorGen.Text

open Identifier (isWordChar isWord)

/-- The word that was read, if there is one. -/
def wordToken (word : List Char) : List String := if word = [] then [] else [String.ofList word]

/-- A character that is not part of a word, if it is not blank. -/
def symbolToken (c : Char) : List String := if isBlank c then [] else [String.ofList [c]]

/-- The tokens of a text, with the word that was read up to here. -/
def tokensFrom (word : List Char) : List Char → List String
  | [] => wordToken word
  | c :: cs =>
    if isWordChar c then tokensFrom (word ++ [c]) cs
    else wordToken word ++ (symbolToken c ++ tokensFrom [] cs)

def tokens (line : List Char) : List String := tokensFrom [] line

/-- The text starts with no character of a word. -/
def Stops (text : List Char) : Prop := ∀ c ∈ text.head?, isWordChar c = false

theorem stops_cons {c : Char} (h : isWordChar c = false) (cs : List Char) : Stops (c :: cs) := by
  intro d hd
  obtain rfl : c = d := Option.some.inj hd
  exact h

theorem tokensFrom_of_stops {text : List Char} (h : Stops text) (word : List Char) :
    tokensFrom word text = wordToken word ++ tokens text := by
  cases text with
  | nil => rw [tokensFrom, tokens, tokensFrom, wordToken, wordToken, if_pos rfl, List.append_nil]
  | cons c cs =>
    have hc : ¬ isWordChar c := by simpa using h c rfl
    rw [tokens, tokensFrom, tokensFrom, if_neg hc, if_neg hc]
    rfl

theorem tokensFrom_append {l r : List Char} (h : Stops r) (word : List Char) :
    tokensFrom word (l ++ r) = tokensFrom word l ++ tokens r := by
  induction l generalizing word with
  | nil => exact tokensFrom_of_stops h word
  | cons c l ih =>
    rw [List.cons_append, tokensFrom, tokensFrom]
    split
    · exact ih _
    · rw [ih, List.append_assoc, List.append_assoc]

/-- A text that stops a word divides the tokens. -/
theorem tokens_append {l r : List Char} (h : Stops r) : tokens (l ++ r) = tokens l ++ tokens r :=
  tokensFrom_append h []

/-- A character that is part of no word divides the tokens. -/
theorem tokens_append_cons {c : Char} (h : isWordChar c = false) (l r : List Char) :
    tokens (l ++ c :: r) = tokens (l ++ [c]) ++ tokens r := by
  have hc : ¬ isWordChar c := by simp [h]
  rw [tokens_append (stops_cons h r), tokens_append (stops_cons h []), List.append_assoc]
  congr 1
  rw [tokens, tokens, tokensFrom, tokensFrom, if_neg hc, if_neg hc, tokensFrom]
  simp [wordToken, tokens]

/-- The characters of a token stand in the text. -/
theorem mem_of_mem_tokensFrom {t : String} {c : Char} (hc : c ∈ t.toList) {l : List Char} :
    ∀ {word : List Char}, t ∈ tokensFrom word l → c ∈ word ∨ c ∈ l := by
  have hword : ∀ {word : List Char}, t ∈ wordToken word → c ∈ word := by
    intro word ht
    unfold wordToken at ht
    split at ht
    · cases ht
    · rwa [List.mem_singleton.mp ht, String.toList_ofList] at hc
  induction l with
  | nil =>
    intro word ht
    exact .inl (hword ht)
  | cons d l ih =>
    intro word ht
    rw [tokensFrom] at ht
    split at ht
    · rcases ih ht with hin | hin
      · rw [List.mem_append, List.mem_singleton] at hin
        rcases hin with hin | rfl
        · exact .inl hin
        · exact .inr List.mem_cons_self
      · exact .inr (List.mem_cons_of_mem d hin)
    · rcases List.mem_append.mp ht with ht | ht
      · exact .inl (hword ht)
      · rcases List.mem_append.mp ht with ht | ht
        · unfold symbolToken at ht
          split at ht
          · cases ht
          · rw [List.mem_singleton.mp ht, String.toList_ofList, List.mem_singleton] at hc
            exact .inr (hc ▸ List.mem_cons_self)
        · rcases ih ht with hin | hin
          · cases hin
          · exact .inr (List.mem_cons_of_mem d hin)

theorem not_mem_tokens {t : String} {c : Char} (hc : c ∈ t.toList) {l : List Char} (hl : c ∉ l) :
    t ∉ tokens l := by
  intro ht
  rcases mem_of_mem_tokensFrom hc ht with hin | hin
  · cases hin
  · exact hl hin

theorem tokensFrom_word {w : List Char} (h : ∀ c ∈ w, isWordChar c) (word : List Char) :
    tokensFrom word w = wordToken (word ++ w) := by
  induction w generalizing word with
  | nil => rw [tokensFrom, List.append_nil]
  | cons c w ih =>
    rw [List.forall_mem_cons] at h
    rw [tokensFrom, if_pos h.1, ih h.2, List.append_assoc, List.singleton_append]

theorem tokens_indent (n : Nat) (l : List Char) : tokens (indent n l) = tokens l := by
  unfold indent
  split
  · rename_i hl
    rw [hl]
  · induction n with
    | zero => rfl
    | succ n ih => exact ih

/-! ### Texts -/

/-- A text that is one word. -/
structure IsToken (s : String) : Prop where
  chars : ∀ c ∈ s.toList, isWordChar c
  ne_nil : s.toList ≠ []

theorem isToken_of_isWord {s : String} (h : isWord s) : IsToken s where
  chars := Identifier.wordChar_of_isWord h
  ne_nil := by
    obtain ⟨c, cs, hs, -⟩ := Identifier.isWord_iff.mp h
    rw [hs]
    exact List.cons_ne_nil c cs

/-- No symbol is a word. -/
theorem IsToken.ne_symbol {s : String} (h : IsToken s) {c : Char} (hc : isWordChar c = false) :
    s ≠ String.ofList [c] := by
  rintro rfl
  have hw := h.chars c (by rw [String.toList_ofList]; exact List.mem_singleton_self c)
  rw [hc] at hw
  cases hw

theorem tokens_word {s : String} (h : IsToken s) : tokens s.toList = [s] := by
  rw [tokens, tokensFrom_word h.chars, List.nil_append, wordToken, if_neg h.ne_nil,
    String.ofList_toList]

theorem tokens_word_append {s t : String} (h : IsToken s) (ht : Stops t.toList) :
    tokens (s ++ t).toList = s :: tokens t.toList := by
  rw [String.toList_append, tokens_append ht, tokens_word h, List.singleton_append]

theorem tokens_literal {cs : List Char} : tokens (String.ofList cs).toList = tokens cs := by
  rw [String.toList_ofList]

/-- A literal whose last character is part of no word divides the tokens. -/
theorem tokens_literal_append {cs : List Char} (h : cs.getLast?.all (!isWordChar ·)) (s : String) :
    tokens (String.ofList cs ++ s).toList = tokens cs ++ tokens s.toList := by
  rw [toList_literal_append]
  cases hc : cs.getLast? with
  | none =>
    rw [List.getLast?_eq_none_iff.mp hc]
    rfl
  | some c =>
    -- The last character ends every word before it, so that none goes into the rest.
    obtain ⟨front, rfl⟩ := List.getLast?_eq_some_iff.mp hc
    rw [List.append_assoc, List.singleton_append, tokens_append_cons (by simpa using h)]

theorem tokens_append_literal {c : Char} (h : isWordChar c = false) {cs : List Char} (s : String) :
    tokens (s ++ String.ofList (c :: cs)).toList = tokens s.toList ++ tokens (c :: cs) := by
  rw [String.toList_append, String.toList_ofList, tokens_append (stops_cons h cs)]

theorem stops_literal {c : Char} (h : isWordChar c = false) (cs : List Char) :
    Stops (String.ofList (c :: cs)).toList := by
  rw [String.toList_ofList]
  exact stops_cons h cs

theorem stops_literal_append {c : Char} (h : isWordChar c = false) (cs : List Char) (s : String) :
    Stops (String.ofList (c :: cs) ++ s).toList := by
  rw [toList_literal_append]
  exact stops_cons h _

end EvaluatorGen.Text
