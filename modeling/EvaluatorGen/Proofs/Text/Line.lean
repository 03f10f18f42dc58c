import EvaluatorGen.Proofs.Text.Layout
import EvaluatorGen.Proofs.Text.Literal

/-!
Texts of one line.

The code of a header is written as literals with names between them. Here a line is put
together from left to right: it opens with a literal, goes on with texts that have no newline,
and closes with a literal (`Opens.append`, `Opens.close`). A literal is a list of characters,
so what a line needs of it is decided.

`bare` is a line without its indentation, by which lines are told apart wherever they are laid
out.
-/
namespace EvaluatorGen.Text

/-! ### Characters of a text -/

/-- The character does not occur in the text. -/
def Lacks (c : Char) (s : String) : Prop := c ∉ s.toList

@[simp] theorem lacks_append {c : Char} {a b : String} :
    Lacks c (a ++ b) ↔ Lacks c a ∧ Lacks c b := by
  rw [Lacks, String.toList_append, List.mem_append, not_or]
  rfl

/-- The characters of a literal are at hand, so what is said of them is decided. -/
theorem lacks_literal {c : Char} {cs : List Char} (h : c ∉ cs) :
    Lacks c (String.ofList cs) := by
  rwa [Lacks, String.toList_ofList]

theorem toList_literal_append {cs : List Char} (s : String) :
    (String.ofList cs ++ s).toList = cs ++ s.toList := by
  rw [String.toList_append, String.toList_ofList]

theorem lacks_escapeLiteral (s : String) : Lacks '\n' (escapeLiteral s) := by
  rw [Lacks, escapeLiteral, String.toList_ofList]
  exact not_mem_escape (.inl rfl) s.toList

theorem lines_intercalate {code : List String} (h : ∀ s ∈ code, Lacks '\n' s) (hne : code ≠ []) :
    lines ("\n".intercalate code).toList = code.map String.toList := by
  have hnewline : "\n".toList = ['\n'] := String.toList_ofList
  induction code with
  | nil => exact absurd rfl hne
  | cons s code ih =>
    rw [List.forall_mem_cons] at h
    cases code with
    | nil =>
      rw [String.intercalate_singleton, lines_of_not_mem h.1]
      rfl
    | cons t code =>
      rw [String.intercalate_cons_cons, String.toList_append, String.toList_append, hnewline,
        List.append_assoc, List.singleton_append, lines_append_newline, lines_of_not_mem h.1,
        ih h.2 (List.cons_ne_nil t code)]
      rfl

/-! ### The two ends of a line -/

/-- A text of one line that starts with a character that is not blank. -/
structure Opens (s : String) : Prop where
  newline : Lacks '\n' s
  starts : Starts s

theorem opens_literal {c : Char} {cs : List Char} (h : '\n' ∉ c :: cs ∧ ¬ isBlank c) :
    Opens (String.ofList (c :: cs)) where
  newline := lacks_literal h.1
  starts := ⟨c, cs, String.toList_ofList, h.2⟩

theorem Opens.append {s t : String} (h : Opens s) (ht : Lacks '\n' t) : Opens (s ++ t) where
  newline := lacks_append.mpr ⟨h.newline, ht⟩
  starts := h.starts.append t

/-- A text of one line that ends with a character that is not blank. -/
structure Closes (s : String) : Prop where
  tidy : Tidy s.toList
  ne_nil : s.toList ≠ []

theorem closes_literal {c : Char} {cs : List Char}
    (h : '\n' ∉ c :: cs ∧ ¬ isBlank ((c :: cs).getLast (List.cons_ne_nil c cs))) :
    Closes (String.ofList (c :: cs)) where
  tidy := by
    rw [String.toList_ofList]
    exact ⟨h.1, fun _ => h.2⟩
  ne_nil := by
    rw [String.toList_ofList]
    exact List.cons_ne_nil c cs

theorem Closes.append {s t : String} (hs : Lacks '\n' s) (ht : Closes t) : Closes (s ++ t) where
  tidy := by
    refine ⟨lacks_append.mpr ⟨hs, ht.tidy.newline⟩, ?_⟩
    rw [String.toList_append]
    intro hne
    rw [List.getLast_append_of_ne_nil hne ht.ne_nil]
    exact ht.tidy.last _
  ne_nil := by
    rw [String.toList_append]
    exact List.append_ne_nil_of_right_ne_nil _ ht.ne_nil

theorem isLine_literal {c : Char} {cs : List Char}
    (h : '\n' ∉ c :: cs ∧ ¬ isBlank c ∧
      ¬ isBlank ((c :: cs).getLast (List.cons_ne_nil c cs))) :
    IsLine (String.ofList (c :: cs)) where
  tidy := (closes_literal ⟨h.1, h.2.2⟩).tidy
  starts := (opens_literal ⟨h.1, h.2.1⟩).starts

/-- What opens a line and what closes one make a line. -/
theorem Opens.close {s t : String} (h : Opens s) (ht : Closes t) : IsLine (s ++ t) where
  tidy := (Closes.append h.newline ht).tidy
  starts := h.starts.append t

/-! ### Indentation -/

/-- A line without the spaces that it starts with. -/
def bare (l : List Char) : List Char := l.dropWhile (· == ' ')

@[simp] theorem bare_indent (n : Nat) (l : List Char) : bare (indent n l) = bare l := by
  unfold indent
  split
  · rename_i hl
    rw [hl]
  · apply List.dropWhile_append_of_pos
    intro c hc
    rw [List.eq_of_mem_replicate hc]
    rfl

theorem Starts.bare {s : String} (h : Starts s) : bare s.toList = s.toList := by
  obtain ⟨c, cs, hs, hc⟩ := h
  rw [hs, Text.bare, List.dropWhile_cons, beq_space_of_not_blank hc]
  rfl

theorem indent_indent (m n : Nat) (l : List Char) : indent m (indent n l) = indent (m + n) l := by
  by_cases hl : l = []
  · rw [hl]
    rfl
  · have hne : List.replicate n ' ' ++ l ≠ [] := List.append_ne_nil_of_right_ne_nil _ hl
    rw [indent_of_ne_nil hl, indent_of_ne_nil hl, indent_of_ne_nil hne, ← List.append_assoc,
      List.replicate_append_replicate]

theorem head?_bare_trimEnd (l : List Char) :
    (bare (trimEnd l)).head? = none ∨ (bare (trimEnd l)).head? = (bare l).head? := by
  obtain ⟨rest, hl⟩ := List.rdropWhile_prefix isBlank l
  cases hb : bare (trimEnd l) with
  | nil => exact .inl rfl
  | cons c cs =>
    refine .inr ?_
    have hbare : bare l = bare (trimEnd l) ++ rest := by
      conv_lhs => rw [← hl]
      unfold bare at hb ⊢
      rw [trimEnd_eq_rdropWhile] at hb ⊢
      rw [List.dropWhile_append, hb]
      rfl
    rw [hbare, hb]
    rfl

theorem bare_drop {l : List Char} {cut : Nat} (h : cut ≤ leadingSpaces l) :
    bare (l.drop cut) = bare l := by
  conv_rhs => rw [← List.take_append_drop cut l]
  exact (List.dropWhile_append_of_pos fun c hc =>
    beq_iff_eq.mpr (eq_space_of_mem_take h hc)).symm

end EvaluatorGen.Text
