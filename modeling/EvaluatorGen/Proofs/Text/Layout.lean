import EvaluatorGen.Text.Block
import Mathlib.Data.List.DropRight

/-!
Laid out text as lines.

`reindent` takes a text and gives a text, and a routine is laid out several times before it
stands in its header: as a block of its own, as a member of the class and with the whole class.
Here each text is the list of its lines, so that these steps can be followed line by line.

1. `reindent_eq_block`: what `reindent` gives is the text of the lines `layout`, and these are
   tidy: `layout_tidy`.
2. `layout_of_indented`: a text whose lines are those of a block behind a common margin is laid
   out as the block behind the new margin. So is a block that was laid out before
   (`layout_block`), and a single line (`layout_line`).
-/
namespace EvaluatorGen.Text

/-! ### Lines -/

theorem divide_ne_nil (sep : Char) (t : List Char) : divide sep t ≠ [] := by
  fun_induction divide sep t <;> exact List.cons_ne_nil _ _

theorem divide_append_sep (sep : Char) (a b : List Char) :
    divide sep (a ++ sep :: b) = divide sep a ++ divide sep b := by
  induction a with
  | nil =>
    rw [List.nil_append, divide.eq_def sep (sep :: b)]
    exact if_pos rfl
  | cons c a ih =>
    rw [List.cons_append, divide, divide, ih]
    split
    · rfl
    · cases ha : divide sep a with
      | nil => exact absurd ha (divide_ne_nil _ a)
      | cons part parts => rfl

theorem lines_append_newline (a b : List Char) : lines (a ++ '\n' :: b) = lines a ++ lines b :=
  divide_append_sep '\n' a b

theorem lines_of_not_mem {l : List Char} (h : '\n' ∉ l) : lines l = [l] := by
  induction l with
  | nil => rfl
  | cons c l ih =>
    rw [List.mem_cons, not_or] at h
    have hl : divide '\n' l = [l] := ih h.2
    rw [lines, divide, if_neg (Ne.symm h.1), hl]

theorem not_mem_of_mem_lines {t l : List Char} (h : l ∈ lines t) : '\n' ∉ l := by
  unfold lines at h
  fun_induction divide '\n' t generalizing l with
  | case1 =>
    rw [List.mem_singleton.mp h]
    exact List.not_mem_nil
  | case2 cs ih =>
    rcases List.mem_cons.mp h with rfl | h
    · exact List.not_mem_nil
    · exact ih h
  | case3 c cs hc _ ih =>
    rw [List.mem_singleton.mp h, List.mem_singleton]
    exact Ne.symm hc
  | case4 c cs hc part parts heq ih =>
    rw [heq] at ih
    rcases List.mem_cons.mp h with rfl | h
    · rw [List.mem_cons, not_or]
      exact ⟨Ne.symm hc, ih List.mem_cons_self⟩
    · exact ih (List.mem_cons_of_mem _ h)

/-- Lines as a text, each ended by a newline. -/
def unlines (ls : List (List Char)) : List Char := ls.flatMap (· ++ ['\n'])

theorem lines_unlines_append {ls : List (List Char)} (h : ∀ l ∈ ls, '\n' ∉ l) (rest : List Char) :
    lines (unlines ls ++ rest) = ls ++ lines rest := by
  induction ls with
  | nil => rfl
  | cons l ls ih =>
    rw [List.forall_mem_cons] at h
    have hcons : unlines (l :: ls) ++ rest = l ++ '\n' :: (unlines ls ++ rest) := by
      simp [unlines]
    rw [hcons, lines_append_newline, lines_of_not_mem h.1, ih h.2]
    rfl

/-- The text of some lines. -/
def block (ls : List (List Char)) : String := String.ofList (unlines ls)

theorem block_append (ls ms : List (List Char)) : block (ls ++ ms) = block ls ++ block ms := by
  rw [block, unlines, List.flatMap_append, String.ofList_append]
  rfl

theorem join_map_block {α : Type} (f : α → List (List Char)) (xs : List α) :
    String.join (xs.map fun x => block (f x)) = block (xs.flatMap f) := by
  rw [← String.toList_inj, String.toList_join, block, String.toList_ofList, unlines,
    List.flatMap_map, List.flatMap_assoc]
  simp only [block, String.toList_ofList, unlines]

theorem lines_block {ls : List (List Char)} (h : ∀ l ∈ ls, '\n' ∉ l) :
    lines (block ls).toList = ls ++ [[]] := by
  have hlines := lines_unlines_append h []
  rw [List.append_nil] at hlines
  rw [block, String.toList_ofList, hlines]
  rfl

/-! ### Layout -/

/-- One line of a block, laid out: `layLine` without the newline. -/
def laid (pad : List Char) (cut : Nat) (line : List Char) : List Char :=
  if isBlankLine line then [] else pad ++ trimEnd (line.drop cut)

theorem layLine_eq (pad : List Char) (cut : Nat) (line : List Char) :
    layLine pad cut line = laid pad cut line ++ ['\n'] := by
  unfold layLine laid
  split
  · rfl
  · rw [List.append_assoc]

/-- The lines of a text less a blank one at either end. -/
def core (text : String) : List (List Char) := dropBlankLast (dropBlankHead (lines text.toList))

/-- The lines of a text laid out at a level. -/
def layout (level : Nat) (text : String) : List (List Char) :=
  (core text).map (laid (List.replicate (4 * level) ' ') (margin (core text)))

theorem reindent_eq_block (level : Nat) (text : String) :
    reindent level text = block (layout level text) := by
  have hline : ∀ pad cut, layLine pad cut = fun line => laid pad cut line ++ ['\n'] :=
    fun pad cut => funext (layLine_eq pad cut)
  simp only [reindent, layLines, block, unlines, layout, List.flatMap_map, hline, core]

theorem join_map_reindent {α : Type} (level : Nat) (f : α → String) (xs : List α) :
    String.join (xs.map fun x => reindent level (f x)) =
      block (xs.flatMap fun x => layout level (f x)) := by
  simp only [reindent_eq_block]
  exact join_map_block _ xs

/-- A line without a newline, and without blanks at its end. -/
structure Tidy (l : List Char) : Prop where
  newline : '\n' ∉ l
  last : ∀ h : l ≠ [], ¬ isBlank (l.getLast h)

theorem tidy_nil : Tidy [] := ⟨List.not_mem_nil, nofun⟩

theorem trimEnd_eq_rdropWhile (l : List Char) : trimEnd l = l.rdropWhile isBlank := rfl

theorem Tidy.trimEnd {l : List Char} (h : Tidy l) : trimEnd l = l :=
  List.rdropWhile_eq_self_iff.mpr h.last

theorem isBlankLine_iff {l : List Char} : isBlankLine l ↔ ∀ c ∈ l, isBlank c := List.all_eq_true

/-- A tidy line is blank only if it is empty. -/
theorem Tidy.isBlankLine_iff {l : List Char} (h : Tidy l) : isBlankLine l ↔ l = [] := by
  refine ⟨fun hb => ?_, fun hl => hl ▸ rfl⟩
  by_contra hne
  exact h.last hne (Text.isBlankLine_iff.mp hb _ (List.getLast_mem hne))

theorem not_mem_replicate_space (n : Nat) : '\n' ∉ List.replicate n ' ' := by
  intro h
  have := List.eq_of_mem_replicate h
  revert this
  decide

/-- Spaces before a line that is not empty leave it tidy. -/
theorem Tidy.pad {l : List Char} (h : Tidy l) (hne : l ≠ []) (n : Nat) :
    Tidy (List.replicate n ' ' ++ l) where
  newline := by
    rw [List.mem_append, not_or]
    exact ⟨not_mem_replicate_space n, h.newline⟩
  last := by
    intro hne'
    rw [List.getLast_append_of_ne_nil hne' hne]
    exact h.last hne

theorem tidy_trimEnd {l : List Char} (h : '\n' ∉ l) : Tidy (trimEnd l) where
  newline := fun hm => h ((List.rdropWhile_prefix isBlank l).subset hm)
  last := List.rdropWhile_last_not isBlank l

/-! ### Margins -/

theorem margin_le {ls : List (List Char)} {l : List Char} (hl : l ∈ ls) (hb : ¬ isBlankLine l) :
    margin ls ≤ leadingSpaces l := by
  have hmem : leadingSpaces l ∈ (ls.filter fun l => !isBlankLine l).map leadingSpaces :=
    List.mem_map_of_mem (List.mem_filter.mpr ⟨hl, by simpa using hb⟩)
  unfold margin
  cases hmin : ((ls.filter fun l => !isBlankLine l).map leadingSpaces).min? with
  | none => exact Nat.zero_le _
  | some m => exact (List.min?_eq_some_iff.mp hmin).2 _ hmem

theorem margin_eq {ls : List (List Char)} {m : Nat}
    (hle : ∀ l ∈ ls, ¬ isBlankLine l → m ≤ leadingSpaces l)
    (hmem : ∃ l ∈ ls, ¬ isBlankLine l ∧ leadingSpaces l = m) : margin ls = m := by
  have hmin : ((ls.filter fun l => !isBlankLine l).map leadingSpaces).min? = some m := by
    refine List.min?_eq_some_iff.mpr ⟨?_, ?_⟩
    · obtain ⟨l, hl, hb, rfl⟩ := hmem
      exact List.mem_map_of_mem (List.mem_filter.mpr ⟨hl, by simpa using hb⟩)
    · intro k hk
      obtain ⟨l, hl, rfl⟩ := List.mem_map.mp hk
      obtain ⟨hl, hb⟩ := List.mem_filter.mp hl
      exact hle l hl (by simpa using hb)
  rw [margin, hmin, Option.getD_some]

/-- What a margin cuts is spaces. -/
theorem eq_space_of_mem_take {l : List Char} {cut : Nat} (h : cut ≤ leadingSpaces l) {c : Char}
    (hc : c ∈ l.take cut) : c = ' ' := by
  have htake : l.take cut = (l.takeWhile (· == ' ')).take cut := by
    rw [List.prefix_iff_eq_take.mp (List.takeWhile_prefix (l := l) (· == ' ')), List.take_take]
    exact congrArg l.take (Nat.min_eq_left h).symm
  rw [htake] at hc
  have hspace := List.mem_takeWhile_imp (List.mem_of_mem_take hc)
  exact beq_iff_eq.mp hspace

theorem isBlank_space : isBlank ' ' := rfl

theorem beq_space_of_not_blank {c : Char} (h : ¬ isBlank c) : (c == ' ') = false := by
  apply beq_false_of_ne
  rintro rfl
  exact h isBlank_space

/-- Cutting a margin leaves something of a line that is not blank. -/
theorem trimEnd_drop_ne_nil {l : List Char} {cut : Nat} (hb : ¬ isBlankLine l)
    (h : cut ≤ leadingSpaces l) : trimEnd (l.drop cut) ≠ [] := by
  intro hnil
  apply hb
  rw [isBlankLine_iff]
  intro c hc
  rw [← List.take_append_drop cut l, List.mem_append] at hc
  rcases hc with hc | hc
  · rw [eq_space_of_mem_take h hc]
    exact isBlank_space
  · exact List.rdropWhile_eq_nil_iff.mp hnil c hc

theorem mem_lines_of_mem_core {text : String} {l : List Char} (h : l ∈ core text) :
    l ∈ lines text.toList := by
  have hdrop : ∀ {ls : List (List Char)}, l ∈ dropBlankHead ls → l ∈ ls := by
    intro ls hl
    cases ls with
    | nil => exact hl
    | cons a ls =>
      rw [dropBlankHead] at hl
      split at hl
      · exact List.mem_cons_of_mem _ hl
      · exact hl
  rw [core, dropBlankLast, List.mem_reverse] at h
  exact hdrop (List.mem_reverse.mp (hdrop h))

theorem layout_tidy {level : Nat} {text : String} : ∀ l ∈ layout level text, Tidy l := by
  intro l hl
  obtain ⟨line, hline, rfl⟩ := List.mem_map.mp hl
  unfold laid
  split
  · exact tidy_nil
  · rename_i hb
    have hnewline : '\n' ∉ line.drop (margin (core text)) := fun h =>
      not_mem_of_mem_lines (mem_lines_of_mem_core hline) (List.mem_of_mem_drop h)
    exact (tidy_trimEnd hnewline).pad (trimEnd_drop_ne_nil hb (margin_le hline hb)) _

/-! ### Nesting -/

/-- A line behind `n` spaces; an empty line stays empty. -/
def indent (n : Nat) (l : List Char) : List Char :=
  if l = [] then [] else List.replicate n ' ' ++ l

@[simp] theorem indent_nil (n : Nat) : indent n [] = [] := rfl

theorem indent_of_ne_nil {l : List Char} (h : l ≠ []) (n : Nat) :
    indent n l = List.replicate n ' ' ++ l := if_neg h

theorem indent_zero (l : List Char) : indent 0 l = l := by
  unfold indent
  split
  · exact Eq.symm ‹_›
  · rfl

theorem Tidy.indent {l : List Char} (h : Tidy l) (n : Nat) : Tidy (indent n l) := by
  unfold Text.indent
  split
  · exact tidy_nil
  · exact h.pad ‹_› n

theorem leadingSpaces_pad (n : Nat) (l : List Char) :
    leadingSpaces (List.replicate n ' ' ++ l) = n + leadingSpaces l := by
  unfold leadingSpaces
  rw [List.takeWhile_append_of_pos, List.length_append, List.length_replicate]
  intro c hc
  rw [List.eq_of_mem_replicate hc]
  rfl

/-- Lines that are a block: none is blank but empty ones, the first is not empty, and some line
    has no indentation. -/
structure IsBlock (ls : List (List Char)) : Prop where
  tidy : ∀ l ∈ ls, Tidy l
  head : ∀ l, ls.head? = some l → l ≠ []
  flush : ∃ l ∈ ls, l ≠ [] ∧ leadingSpaces l = 0

theorem IsBlock.append {ls ms : List (List Char)} (h : IsBlock ls) (hms : ∀ l ∈ ms, Tidy l) :
    IsBlock (ls ++ ms) where
  tidy := List.forall_mem_append.mpr ⟨h.tidy, hms⟩
  head := by
    obtain ⟨l, hl, -⟩ := h.flush
    rw [List.head?_append_of_ne_nil _ (List.ne_nil_of_mem hl)]
    exact h.head
  flush := by
    obtain ⟨l, hl, hflush⟩ := h.flush
    exact ⟨l, List.mem_append_left _ hl, hflush⟩

theorem isBlank_indent_iff {l : List Char} (h : Tidy l) (n : Nat) :
    isBlankLine (indent n l) ↔ l = [] := by
  rw [(h.indent n).isBlankLine_iff]
  unfold indent
  split
  · simp_all
  · simp_all

theorem IsBlock.margin_indent {ls : List (List Char)} (h : IsBlock ls) (m : Nat) :
    margin (ls.map (indent m)) = m := by
  apply margin_eq
  · intro l hl hb
    obtain ⟨line, hline, rfl⟩ := List.mem_map.mp hl
    rw [isBlank_indent_iff (h.tidy line hline)] at hb
    rw [indent_of_ne_nil hb, leadingSpaces_pad]
    exact Nat.le_add_right m _
  · obtain ⟨l, hl, hne, hflush⟩ := h.flush
    refine ⟨indent m l, List.mem_map_of_mem hl, ?_, ?_⟩
    · rw [isBlank_indent_iff (h.tidy l hl)]
      exact hne
    · rw [indent_of_ne_nil hne, leadingSpaces_pad, hflush]
      rfl

theorem laid_indent {l : List Char} (h : Tidy l) (m n : Nat) :
    laid (List.replicate n ' ') m (indent m l) = indent n l := by
  unfold laid
  split
  · rename_i hb
    rw [isBlank_indent_iff h] at hb
    rw [hb, indent_nil]
  · rename_i hb
    rw [isBlank_indent_iff h] at hb
    have hdrop : (indent m l).drop m = l := by
      rw [indent_of_ne_nil hb]
      exact List.drop_left' (List.length_replicate ..)
    rw [hdrop, h.trimEnd, indent_of_ne_nil hb]

/-- A block behind one margin is laid out behind another. -/
theorem layout_of_indented {text : String} {ls : List (List Char)} {m : Nat} (h : IsBlock ls)
    (hcore : core text = ls.map (indent m)) (level : Nat) :
    layout level text = ls.map (indent (4 * level)) := by
  rw [layout, hcore, h.margin_indent, List.map_map]
  apply List.map_congr_left
  intro l hl
  exact laid_indent (h.tidy l hl) m _

theorem dropBlankHead_of_ne {ls : List (List Char)}
    (h : ∀ l, ls.head? = some l → ¬ isBlankLine l) : dropBlankHead ls = ls := by
  cases ls with
  | nil => rfl
  | cons l ls => exact if_neg (h l rfl)

theorem dropBlankLast_append {l : List Char} (h : isBlankLine l) (ls : List (List Char)) :
    dropBlankLast (ls ++ [l]) = ls := by
  rw [dropBlankLast, List.reverse_append, List.reverse_singleton, List.singleton_append,
    dropBlankHead, if_pos h, List.reverse_reverse]

/-- Lines are the lines of their text, if the first is not blank. -/
theorem core_block {l : List Char} {ls : List (List Char)} (hl : ¬ isBlankLine l)
    (h : ∀ m ∈ l :: ls, '\n' ∉ m) : core (block (l :: ls)) = l :: ls := by
  have hhead : dropBlankHead (l :: ls ++ [[]]) = l :: ls ++ [[]] := by
    apply dropBlankHead_of_ne
    intro m hm
    cases hm
    exact hl
  rw [core, lines_block h, hhead, dropBlankLast_append rfl]

/-- A block that was laid out before keeps the indentation of its lines to each other, and its
    empty lines. -/
theorem layout_block {ls : List (List Char)} (h : IsBlock ls) (level : Nat) :
    layout level (block ls) = ls.map (indent (4 * level)) := by
  apply layout_of_indented h (m := 0)
  rw [List.map_congr_left fun l _ => indent_zero l, List.map_id']
  cases ls with
  | nil => exact absurd h.flush (by simp)
  | cons first ls =>
    refine core_block ?_ fun l hl => (h.tidy l hl).newline
    rw [(h.tidy first List.mem_cons_self).isBlankLine_iff]
    exact h.head first rfl

/-! ### Texts of one line -/

/-- A text starts with a character that is not blank. -/
def Starts (s : String) : Prop := ∃ c cs, s.toList = c :: cs ∧ ¬ isBlank c

/-- A text of one line that starts and ends with characters that are not blank. -/
structure IsLine (s : String) : Prop where
  tidy : Tidy s.toList
  starts : Starts s

theorem Starts.ne_nil {s : String} (h : Starts s) : s.toList ≠ [] := by
  obtain ⟨c, cs, hs, -⟩ := h
  rw [hs]
  exact List.cons_ne_nil c cs

theorem Starts.append {s : String} (h : Starts s) (t : String) : Starts (s ++ t) := by
  obtain ⟨c, cs, hs, hc⟩ := h
  refine ⟨c, cs ++ t.toList, ?_, hc⟩
  rw [String.toList_append, hs, List.cons_append]

theorem Starts.leadingSpaces {s : String} (h : Starts s) : leadingSpaces s.toList = 0 := by
  obtain ⟨c, cs, hs, hc⟩ := h
  rw [hs, Text.leadingSpaces, List.takeWhile_cons, beq_space_of_not_blank hc]
  rfl

/-- Code that starts with a line is a block. -/
theorem IsLine.isBlock {s : String} (h : IsLine s) {ls : List (List Char)}
    (hls : ∀ l ∈ ls, Tidy l) : IsBlock (s.toList :: ls) where
  tidy := List.forall_mem_cons.mpr ⟨h.tidy, hls⟩
  head := by
    intro l hl
    cases hl
    exact h.starts.ne_nil
  flush := ⟨s.toList, List.mem_cons_self, h.starts.ne_nil, h.starts.leadingSpaces⟩

theorem layout_line {s : String} (h : IsLine s) (level : Nat) :
    layout level s = [indent (4 * level) s.toList] := by
  have hblock : IsBlock [s.toList] := h.isBlock (List.forall_mem_nil _)
  apply layout_of_indented hblock (m := 0)
  have hhead : dropBlankHead [s.toList] = [s.toList] := by
    rw [dropBlankHead, if_neg]
    rw [h.tidy.isBlankLine_iff]
    exact h.starts.ne_nil
  rw [core, lines_of_not_mem h.tidy.newline, hhead, dropBlankLast, List.reverse_singleton, hhead,
    List.map_singleton, indent_zero]
  rfl

theorem dropBlankLast_cons {l : List Char} (h : ¬ isBlankLine l) (ls : List (List Char)) :
    ∃ rest, dropBlankLast (l :: ls) = l :: rest := by
  rw [dropBlankLast]
  cases hrev : ls.reverse with
  | nil => exact ⟨[], by rw [List.reverse_cons, hrev, List.nil_append, dropBlankHead, if_neg h]; rfl⟩
  | cons a as =>
    rw [List.reverse_cons, hrev, List.cons_append, dropBlankHead]
    split
    · exact ⟨as.reverse, by simp⟩
    · exact ⟨as.reverse ++ [a], by simp⟩

/-- A text that starts with a character that is not blank keeps its first line, however many
    lines it has. -/
theorem Starts.layout {s : String} (h : Starts s) (level : Nat) :
    ∃ l ls, layout level s = l :: ls ∧ l ≠ [] := by
  obtain ⟨c, cs, hs, hc⟩ := h
  have hnewline : c ≠ '\n' := by
    rintro rfl
    exact hc rfl
  obtain ⟨part, parts, hlines⟩ : ∃ part parts, lines s.toList = (c :: part) :: parts := by
    rw [hs, lines, divide, if_neg hnewline]
    split
    · exact ⟨[], [], rfl⟩
    · exact ⟨_, _, rfl⟩
  have hb : ¬ isBlankLine (c :: part) := fun h => hc (isBlankLine_iff.mp h c List.mem_cons_self)
  obtain ⟨rest, hcore⟩ : ∃ rest, core s = (c :: part) :: rest := by
    rw [core, hlines, dropBlankHead, if_neg hb]
    exact dropBlankLast_cons hb parts
  refine ⟨_, _, by rw [Text.layout, hcore, List.map_cons], ?_⟩
  have hmargin : margin ((c :: part) :: rest) ≤ Text.leadingSpaces (c :: part) :=
    margin_le List.mem_cons_self hb
  rw [laid, if_neg hb]
  exact List.append_ne_nil_of_right_ne_nil _ (trimEnd_drop_ne_nil hb hmargin)

end EvaluatorGen.Text
