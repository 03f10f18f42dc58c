import EvaluatorGen.Text.Literal
import Mathlib.Data.List.DropRight

/-!
Reading a string literal.

A literal ends at the first quote that is not escaped, which is the first one behind an even number
of backslashes. A `Scanner` reads a literal of the generated language behind its opening quote.
Scanners differ in the escape sequences that they know and in the characters that they take only
as one.

1. `EndsAt.unique`: a literal ends in one place, and `Scanner.scan_endsAt`: every scanner that comes
   to an end stops there.
2. `Scanner.scan_escape`: a scanner reads an escaped text back, and stops at the quote that follows,
   so that is where the literal ends (`escape_quotable`).
3. `escapeLiteral_unbroken`: no string ends the literal that it is written to, or its line.

`scanLiteral` is the scanner that knows all the simple escape sequences and refuses a newline.
-/
namespace EvaluatorGen.Text

/-! ### Where a literal ends -/

/-- What stands behind this text is escaped: the run of backslashes at its end is odd. -/
def Escaped (before : List Char) : Prop :=
  (before.rtakeWhile (· == '\\')).length % 2 = 1

/-- A text that may stand between the quotes of a literal: each quote in it is escaped, and a quote
    behind it is not. -/
structure Quotable (text : List Char) : Prop where
  inside : ∀ before after, text = before ++ '"' :: after → Escaped before
  behind : ¬ Escaped text

/-- The first quote of a text that is not escaped stands between these two parts of it. -/
structure EndsAt (text inside rest : List Char) : Prop where
  quotable : Quotable inside
  eq : text = inside ++ '"' :: rest

theorem not_escaped_nil : ¬ Escaped [] := by
  simp [Escaped]

theorem escaped_backslash (before : List Char) :
    Escaped (before ++ ['\\']) ↔ ¬ Escaped before := by
  rw [Escaped, Escaped, List.rtakeWhile_concat_pos _ _ _ rfl, List.length_append,
    List.length_singleton]
  omega

theorem not_escaped_concat (before : List Char) {c : Char} (h : c ≠ '\\') :
    ¬ Escaped (before ++ [c]) := by
  rw [Escaped, List.rtakeWhile_concat_neg _ _ _ (by simpa using h)]
  simp

/-- Behind a place that is not escaped, what came before it no longer counts. -/
theorem escaped_append {before : List Char} (h : ¬ Escaped before) (text : List Char) :
    Escaped (before ++ text) ↔ Escaped text := by
  induction text using List.reverseRecOn with
  | nil => simp [h, not_escaped_nil]
  | append_singleton text c ih =>
    by_cases hc : c = '\\'
    · subst hc
      rw [← List.append_assoc, escaped_backslash, escaped_backslash, ih]
    · rw [← List.append_assoc]
      exact iff_of_false (not_escaped_concat _ hc) (not_escaped_concat _ hc)

namespace Quotable

theorem nil : Quotable [] where
  inside before after h := by simp at h
  behind := not_escaped_nil

theorem plain {c : Char} (hquote : c ≠ '"') (hbackslash : c ≠ '\\') : Quotable [c] where
  inside before after h := by
    cases before with
    | nil => exact absurd (List.cons.inj h).1 hquote
    | cons d before => simp at h
  behind := not_escaped_concat [] hbackslash

/-- A backslash with the character that it escapes. -/
theorem pair (c : Char) : Quotable ['\\', c] where
  inside before after h := by
    match before, h with
    | [_], h =>
      obtain ⟨rfl, -⟩ := List.cons.inj h
      exact (escaped_backslash []).mpr not_escaped_nil
    | _ :: _ :: before, h => simp at h
  behind := by
    have hone : Escaped ['\\'] := (escaped_backslash []).mpr not_escaped_nil
    by_cases hc : c = '\\'
    · subst hc
      exact mt (escaped_backslash ['\\']).mp (not_not.mpr hone)
    · exact not_escaped_concat ['\\'] hc

theorem append {text text' : List Char} (h : Quotable text) (h' : Quotable text') :
    Quotable (text ++ text') where
  inside before after heq := by
    obtain ⟨u, rfl, hu⟩ | ⟨u, hu, hafter⟩ := List.append_eq_append_iff.mp heq
    · rw [escaped_append h.behind]
      exact h'.inside u after hu
    · cases u with
      | nil =>
        rw [List.append_nil] at hu
        have hnil := h'.inside [] after hafter.symm
        exact absurd hnil not_escaped_nil
      | cons c u =>
        obtain ⟨rfl, -⟩ := List.cons.inj hafter
        exact h.inside before u hu
  behind := by
    rw [escaped_append h.behind]
    exact h'.behind

/-- With a quote behind it, a text is no longer one that may stand between quotes. -/
theorem not_quotable {text : List Char} (h : Quotable text) (after : List Char) :
    ¬ Quotable (text ++ '"' :: after) :=
  fun h' => h.behind (h'.inside text after rfl)

end Quotable

/-- A literal ends in one place. -/
theorem EndsAt.unique {text inside inside' rest rest' : List Char} (h : EndsAt text inside rest)
    (h' : EndsAt text inside' rest') : inside = inside' ∧ rest = rest' := by
  rcases List.append_eq_append_iff.mp (h.eq.symm.trans h'.eq) with ⟨u, rfl, hu⟩ | ⟨u, rfl, hu⟩
  · cases u with
    | nil => exact ⟨(List.append_nil _).symm, (List.cons.inj hu).2⟩
    | cons c u =>
      obtain ⟨rfl, -⟩ := List.cons.inj hu
      exact absurd h'.quotable (h.quotable.not_quotable u)
  · cases u with
    | nil => exact ⟨List.append_nil _, (List.cons.inj hu).2.symm⟩
    | cons c u =>
      obtain ⟨rfl, -⟩ := List.cons.inj hu
      exact absurd h.quotable (h'.quotable.not_quotable u)

/-! ### Scanners -/

/-- A reader of string literals. It knows at least the escape sequences that stand for a backslash,
    a quote, a newline, a carriage return and a tab. -/
structure Scanner where
  /-- The value of an escape sequence, by what follows its backslash. -/
  escape? : Char → Option Char
  /-- What may not stand in a literal as it is. -/
  refuses : Char → Bool
  backslash : escape? '\\' = some '\\' := by rfl
  quote : escape? '"' = some '"' := by rfl
  newline : escape? 'n' = some '\n' := by rfl
  carriageReturn : escape? 'r' = some '\r' := by rfl
  tab : escape? 't' = some '\t' := by rfl
  refuses_break : ∀ c, refuses c → c = '\n' ∨ c = '\r'

namespace Scanner

/-- The value of the literal that a text continues, and the text behind its closing quote. -/
def scan (S : Scanner) : List Char → Option (List Char × List Char)
  | [] => none
  | '"' :: rest => some ([], rest)
  | ['\\'] => none
  | '\\' :: e :: rest =>
    (S.escape? e).bind fun c => (S.scan rest).map fun r => (c :: r.1, r.2)
  | c :: rest => if S.refuses c then none else (S.scan rest).map fun r => (c :: r.1, r.2)

variable (S : Scanner)

theorem scan_pair {e c : Char} (he : S.escape? e = some c) (rest : List Char) :
    S.scan ('\\' :: e :: rest) = (S.scan rest).map fun r => (c :: r.1, r.2) := by
  rw [scan, he, Option.bind_some]

theorem scan_plain {c : Char} (hquote : c ≠ '"') (hbackslash : c ≠ '\\') (rest : List Char) :
    S.scan (c :: rest) =
      if S.refuses c then none else (S.scan rest).map fun r => (c :: r.1, r.2) := by
  rw [scan]
  · exact hquote
  · exact fun h _ => hbackslash h
  · exact fun _ _ h _ => hbackslash h

theorem scan_escapeChar (c : Char) (rest : List Char) :
    S.scan (escapeChar c ++ rest) = (S.scan rest).map fun r => (c :: r.1, r.2) := by
  unfold escapeChar
  split
  case h_1 => exact S.scan_pair S.backslash rest
  case h_2 => exact S.scan_pair S.quote rest
  case h_3 => exact S.scan_pair S.newline rest
  case h_4 => exact S.scan_pair S.carriageReturn rest
  case h_5 => exact S.scan_pair S.tab rest
  case h_6 hbackslash hquote hnewline hreturn _ =>
    have hplain : S.refuses c ≠ true := fun h => (S.refuses_break c h).elim hnewline hreturn
    rw [List.singleton_append, S.scan_plain hquote hbackslash, if_neg hplain]

theorem scan_escape (s rest : List Char) :
    S.scan (s.flatMap escapeChar ++ '"' :: rest) = some (s, rest) := by
  induction s with
  | nil => rw [List.flatMap_nil, List.nil_append, scan]
  | cons c s ih =>
    rw [List.flatMap_cons, List.append_assoc, scan_escapeChar, ih]
    rfl

/-- A scanner ends at the first quote that is not escaped, whatever the value is that it reads. -/
theorem scan_endsAt {text value rest : List Char} (h : S.scan text = some (value, rest)) :
    ∃ inside, EndsAt text inside rest := by
  fun_induction S.scan text generalizing value with
  | case1 => nomatch h
  | case2 text =>
    obtain ⟨-, rfl⟩ := Prod.mk.inj (Option.some.inj h)
    exact ⟨[], ⟨.nil, rfl⟩⟩
  | case3 => nomatch h
  | case4 e text ih =>
    obtain ⟨c, -, h⟩ := Option.bind_eq_some_iff.mp h
    obtain ⟨r, hr, heq⟩ := Option.map_eq_some_iff.mp h
    obtain ⟨-, rfl⟩ := Prod.mk.inj heq
    obtain ⟨inside, ⟨hinside, rfl⟩⟩ := ih hr
    exact ⟨_, ⟨(Quotable.pair e).append hinside, rfl⟩⟩
  | case5 c text => nomatch h
  | case6 c text hquote hend hescape _ ih =>
    have hbackslash : c ≠ '\\' := by
      intro hc
      cases text with
      | nil => exact hend hc rfl
      | cons e text => exact hescape e text hc rfl
    obtain ⟨r, hr, heq⟩ := Option.map_eq_some_iff.mp h
    obtain ⟨-, rfl⟩ := Prod.mk.inj heq
    obtain ⟨inside, ⟨hinside, rfl⟩⟩ := ih hr
    exact ⟨_, ⟨(Quotable.plain hquote hbackslash).append hinside, rfl⟩⟩

/-- The scanner that knows no other escape sequences and takes every other character as it is. -/
def short : Scanner where
  escape?
    | '\\' => some '\\'
    | '"' => some '"'
    | 'n' => some '\n'
    | 'r' => some '\r'
    | 't' => some '\t'
    | _ => none
  refuses _ := false
  refuses_break _ h := nomatch h

end Scanner

/-- No quote in an escaped text ends the literal, since a scanner that stopped there would not have
    read all of the text. -/
theorem escape_quotable (s : List Char) : Quotable (s.flatMap escapeChar) := by
  obtain ⟨inside, h, heq⟩ := Scanner.short.scan_endsAt (Scanner.short.scan_escape s [])
  rw [List.append_cancel_right heq]
  exact h

/-- An escaped text stays on its line. -/
theorem not_mem_escape {c : Char} (hc : c = '\n' ∨ c = '\r') (s : List Char) :
    c ∉ s.flatMap escapeChar := by
  intro h
  obtain ⟨d, -, hd⟩ := List.mem_flatMap.mp h
  unfold escapeChar at hd
  split at hd
  case h_6 hnewline hreturn _ =>
    obtain rfl := List.mem_singleton.mp hd
    exact hc.elim hnewline hreturn
  all_goals
    revert hd
    rcases hc with rfl | rfl
    all_goals decide

/-! ### All simple escape sequences -/

/-- The character of a simple escape sequence, by what follows its backslash. -/
def simpleEscape? : Char → Option Char
  | '\\' => some '\\'
  | '"' => some '"'
  | '\x27' => some '\x27'
  | '?' => some '?'
  | 'a' => some '\x07'
  | 'b' => some '\x08'
  | 't' => some '\t'
  | 'n' => some '\n'
  | 'v' => some '\x0b'
  | 'f' => some '\x0c'
  | 'r' => some '\r'
  | _ => none

/-- The value of the literal that a text continues, and the text behind its closing quote. -/
def scanLiteral : List Char → Option (List Char × List Char)
  | [] => none
  | '"' :: rest => some ([], rest)
  | '\n' :: _ => none
  | ['\\'] => none
  | '\\' :: e :: rest =>
    (simpleEscape? e).bind fun c => (scanLiteral rest).map fun r => (c :: r.1, r.2)
  | c :: rest => (scanLiteral rest).map fun r => (c :: r.1, r.2)

/-- The scanner that knows the simple escape sequences and refuses a newline. -/
def Scanner.simple : Scanner where
  escape? := simpleEscape?
  refuses c := c == '\n'
  refuses_break _ h := .inl (beq_iff_eq.mp h)

theorem scan_simple (text : List Char) : Scanner.simple.scan text = scanLiteral text := by
  fun_induction scanLiteral text with
  | case1 => rfl
  | case2 rest => rfl
  | case3 rest => rfl
  | case4 => rfl
  | case5 e rest ih =>
    rw [Scanner.scan, ih]
    rfl
  | case6 c rest hquote hnewline hend hescape ih =>
    have hplain : Scanner.simple.refuses c ≠ true := fun h => hnewline (beq_iff_eq.mp h)
    rw [Scanner.scan]
    · rw [if_neg hplain, ih]
    · exact hquote
    · exact hend
    · exact hescape

theorem scanLiteral_escape (s rest : List Char) :
    scanLiteral (s.flatMap escapeChar ++ '"' :: rest) = some (s, rest) := by
  rw [← scan_simple, Scanner.scan_escape]

/-! ### Literals of the generated code -/

/-- No string ends the literal that it is written to. Every scanner reads the string back and stops
    at the quote behind it, and that quote is the first one that is not escaped. No line of the code
    ends within the literal, and no other string is written in the same way. -/
theorem escapeLiteral_unbroken :
    (∀ (S : Scanner) (s r : String),
      S.scan (escapeLiteral s ++ "\"" ++ r).toList = some (s.toList, r.toList)) ∧
    (∀ (s r : String) (inside rest : List Char),
      EndsAt (escapeLiteral s ++ "\"" ++ r).toList inside rest ↔
        inside = (escapeLiteral s).toList ∧ rest = r.toList) ∧
    (∀ s : String, '\n' ∉ (escapeLiteral s).toList ∧ '\r' ∉ (escapeLiteral s).toList) ∧
    Function.Injective escapeLiteral := by
  have htext : ∀ s : String, (escapeLiteral s).toList = s.toList.flatMap escapeChar :=
    fun _ => String.toList_ofList
  have hscan : ∀ (S : Scanner) (s r : String),
      S.scan (escapeLiteral s ++ "\"" ++ r).toList = some (s.toList, r.toList) := by
    intro S s r
    rw [String.toList_append, String.toList_append, htext, List.append_assoc]
    exact S.scan_escape s.toList r.toList
  have hends : ∀ s r : String,
      EndsAt (escapeLiteral s ++ "\"" ++ r).toList (escapeLiteral s).toList r.toList := by
    intro s r
    rw [String.toList_append, String.toList_append, List.append_assoc, htext]
    exact ⟨escape_quotable s.toList, rfl⟩
  refine ⟨hscan, fun s r inside rest => ⟨fun h => h.unique (hends s r), ?_⟩, fun s => ?_, ?_⟩
  · intro h
    obtain ⟨rfl, rfl⟩ := h
    exact hends s r
  · rw [htext]
    exact ⟨not_mem_escape (.inl rfl) _, not_mem_escape (.inr rfl) _⟩
  · intro s s' h
    have hread := hscan .short s ""
    rw [h, hscan .short s' ""] at hread
    obtain ⟨hs, -⟩ := Prod.mk.inj (Option.some.inj hread)
    exact (String.toList_inj.mp hs).symm

/-- Without escapes the literal ends early. -/
example : Scanner.short.scan "a\" + \"b\"".toList = some (['a'], " + \"b\"".toList) := by decide

end EvaluatorGen.Text
