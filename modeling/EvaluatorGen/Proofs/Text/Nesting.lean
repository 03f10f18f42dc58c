import EvaluatorGen.Proofs.Text.Line
import Mathlib.Data.List.Forall2

/-!
Blocks that are laid out again.

A routine is laid out as a block, then as a member of its class, then with the class. For a block
that starts soon enough, only the last level counts.

1. `isBlock_layout`: what is laid out has no indentation in common but that of its level.
2. `reindent_reindent`: so laying it out again gives what the block itself gives.
3. `relaid_layout`: line by line, all indentation changes by the same amount, and blank lines stay
   where they were. `reindent_nested` says both of any number of levels.

A block that starts with two blank lines loses the second one when it is laid out again.
-/
namespace EvaluatorGen.Text

/-- The first line of a block is not blank, or it is and the second one is not. -/
inductive StartsSoon (b : String) : Prop where
  | first {l : List Char} {ls : List (List Char)} (lines : lines b.toList = l :: ls)
      (first : ¬ isBlankLine l)
  | second {l m : List Char} {ls : List (List Char)} (lines : lines b.toList = l :: m :: ls)
      (first : isBlankLine l) (second : ¬ isBlankLine m)

/-- The block laid out at one level after another. -/
def nested (levels : List Nat) (b : String) : String :=
  levels.foldl (fun text level => reindent level text) b

/-- What a line of a block with the margin `cut` becomes behind `pad` spaces. The spaces that it
    starts with change by the same number for every line, and the text behind them loses the blanks
    at its end only. -/
structure Relaid (cut pad : Nat) (line line' : List Char) : Prop where
  of_blank : isBlankLine line → line' = []
  ne_nil : ¬ isBlankLine line → line' ≠ []
  spaces : ¬ isBlankLine line → leadingSpaces line' + cut = leadingSpaces line + pad
  text : ¬ isBlankLine line → bare line' = trimEnd (bare line)

/-! ### One line -/

theorem pad_bare (l : List Char) : List.replicate (leadingSpaces l) ' ' ++ bare l = l := by
  have hspaces : l.takeWhile (· == ' ') = List.replicate (leadingSpaces l) ' ' := by
    apply List.eq_replicate_of_mem
    intro c hc
    have hspace := List.mem_takeWhile_imp hc
    exact beq_iff_eq.mp hspace
  rw [← hspaces]
  exact List.takeWhile_append_dropWhile

theorem drop_eq_pad_bare {l : List Char} {cut : Nat} (h : cut ≤ leadingSpaces l) :
    l.drop cut = List.replicate (leadingSpaces l - cut) ' ' ++ bare l := by
  conv_lhs => rw [← pad_bare l]
  rw [List.drop_append_of_le_length (by rwa [List.length_replicate]), List.drop_replicate]

theorem bare_not_blank {l : List Char} (h : ¬ isBlankLine l) : ¬ isBlankLine (bare l) := by
  intro hb
  apply h
  rw [isBlankLine_iff] at hb ⊢
  intro c hc
  rw [← pad_bare l, List.mem_append] at hc
  rcases hc with hc | hc
  · rw [List.eq_of_mem_replicate hc]
    exact isBlank_space
  · exact hb c hc

theorem trimEnd_ne_nil {l : List Char} (h : ¬ isBlankLine l) : trimEnd l ≠ [] := by
  intro hnil
  exact h (isBlankLine_iff.mpr (List.rdropWhile_eq_nil_iff.mp hnil))

/-- Trimming stops inside a line that is not blank, whatever stands before it. -/
theorem trimEnd_append {l : List Char} (h : ¬ isBlankLine l) (a : List Char) :
    trimEnd (a ++ l) = a ++ trimEnd l := by
  have hne : l.reverse.dropWhile isBlank ≠ [] := by
    intro hnil
    exact trimEnd_ne_nil h (by rw [trimEnd, hnil, List.reverse_nil])
  rw [trimEnd, List.reverse_append, List.dropWhile_append, if_neg (by simpa using hne),
    List.reverse_append, List.reverse_reverse]
  rfl

/-- The text of a line starts with no space, and trimming its end leaves its start. -/
theorem leadingSpaces_trimEnd_bare {l : List Char} (h : ¬ isBlankLine l) :
    leadingSpaces (trimEnd (bare l)) = 0 := by
  obtain ⟨rest, hl⟩ := List.rdropWhile_prefix isBlank (bare l)
  cases hb : trimEnd (bare l) with
  | nil => exact absurd hb (trimEnd_ne_nil (bare_not_blank h))
  | cons c cs =>
    have hbare : bare l = c :: (cs ++ rest) := by
      rw [← hl, ← trimEnd_eq_rdropWhile, hb, List.cons_append]
    have hspace : (c == ' ') = false := by
      have hhead := List.head?_dropWhile_not (· == ' ') l
      rw [← bare, hbare] at hhead
      simpa using hhead
    rw [leadingSpaces, List.takeWhile_cons, hspace]
    rfl

theorem relaid_laid {l : List Char} {cut : Nat} (hcut : ¬ isBlankLine l → cut ≤ leadingSpaces l)
    (pad : Nat) : Relaid cut pad l (laid (List.replicate pad ' ') cut l) := by
  have hlaid (hb : ¬ isBlankLine l) : laid (List.replicate pad ' ') cut l =
      List.replicate (pad + (leadingSpaces l - cut)) ' ' ++ trimEnd (bare l) := by
    rw [laid, if_neg hb, drop_eq_pad_bare (hcut hb), trimEnd_append (bare_not_blank hb),
      ← List.append_assoc, List.replicate_append_replicate]
  have hne (hb : ¬ isBlankLine l) : trimEnd (bare l) ≠ [] := trimEnd_ne_nil (bare_not_blank hb)
  constructor
  case of_blank =>
    intro hb
    exact if_pos hb
  case ne_nil =>
    intro hb
    rw [hlaid hb]
    exact List.append_ne_nil_of_right_ne_nil _ (hne hb)
  case spaces =>
    intro hb
    have hle := hcut hb
    rw [hlaid hb, leadingSpaces_pad, leadingSpaces_trimEnd_bare hb]
    omega
  case text =>
    intro hb
    have hflush := leadingSpaces_trimEnd_bare hb
    rw [hlaid hb, ← indent_of_ne_nil (hne hb), bare_indent]
    have hpad := pad_bare (trimEnd (bare l))
    rwa [hflush] at hpad

/-! ### All lines -/

theorem relaid_layout (level : Nat) (b : String) :
    List.Forall₂ (Relaid (margin (core b)) (4 * level)) (core b) (layout level b) := by
  refine List.forall₂_map_right_iff.mpr (List.forall₂_same.mpr fun l hl => ?_)
  exact relaid_laid (margin_le hl) _

theorem layout_eq_indent (level : Nat) (b : String) :
    layout level b = (layout 0 b).map (indent (4 * level)) := by
  rw [layout, layout, List.map_map]
  apply List.map_congr_left
  intro l hl
  rw [Function.comp_apply, laid, laid]
  split
  · rfl
  · rename_i hb
    rw [Nat.mul_zero, List.replicate_zero, List.nil_append,
      indent_of_ne_nil (trimEnd_drop_ne_nil hb (margin_le hl hb))]

theorem StartsSoon.core {b : String} (h : StartsSoon b) :
    ∃ l ls, core b = l :: ls ∧ ¬ isBlankLine l := by
  have hdrop : ∃ l ls, dropBlankHead (lines b.toList) = l :: ls ∧ ¬ isBlankLine l := by
    cases h with
    | @first l ls hlines hl => exact ⟨l, ls, by rw [hlines, dropBlankHead, if_neg hl], hl⟩
    | @second l m ls hlines hl hm => exact ⟨m, ls, by rw [hlines, dropBlankHead, if_pos hl], hm⟩
  obtain ⟨l, ls, hdrop, hl⟩ := hdrop
  obtain ⟨rest, hlast⟩ := dropBlankLast_cons hl ls
  exact ⟨l, rest, by rw [Text.core, hdrop, hlast], hl⟩

/-- Some line has no spaces before it but those that all have. -/
theorem exists_margin {ls : List (List Char)} (h : ∃ l ∈ ls, ¬ isBlankLine l) :
    ∃ l ∈ ls, ¬ isBlankLine l ∧ leadingSpaces l = margin ls := by
  unfold margin
  cases hmin : ((ls.filter fun l => !isBlankLine l).map leadingSpaces).min? with
  | none =>
    obtain ⟨l, hl, hb⟩ := h
    rw [List.min?_eq_none_iff, List.map_eq_nil_iff, List.filter_eq_nil_iff] at hmin
    exact absurd (by simpa using hb) (hmin l hl)
  | some m =>
    obtain ⟨l, hl, hm⟩ := List.mem_map.mp (List.min?_eq_some_iff.mp hmin).1
    obtain ⟨hl, hb⟩ := List.mem_filter.mp hl
    exact ⟨l, hl, by simpa using hb, hm⟩

theorem isBlock_layout {b : String} (h : StartsSoon b) : IsBlock (layout 0 b) := by
  obtain ⟨first, rest, hcore, hfirst⟩ := h.core
  constructor
  case tidy => exact layout_tidy
  case head =>
    intro l hl
    rw [layout, hcore, List.map_cons, List.head?_cons] at hl
    obtain rfl := Option.some.inj hl
    refine (relaid_laid (fun hb => ?_) _).ne_nil hfirst
    exact margin_le List.mem_cons_self hb
  case flush =>
    have hmem : first ∈ Text.core b := by rw [hcore]; exact List.mem_cons_self
    obtain ⟨l, hl, hb, hm⟩ := exists_margin ⟨first, hmem, hfirst⟩
    have hr := relaid_laid (fun _ => Nat.le_of_eq hm.symm) (4 * 0) (l := l)
    refine ⟨_, List.mem_map_of_mem hl, hr.ne_nil hb, ?_⟩
    have hspaces := hr.spaces hb
    omega

/-- What is laid out has its first line in front, and the same lines. -/
theorem core_reindent {b : String} (h : StartsSoon b) (level : Nat) :
    core (reindent level b) = layout level b ∧ StartsSoon (reindent level b) := by
  obtain ⟨first, rest, hcore, hfirst⟩ := h.core
  have hlayout : layout level b = laid (List.replicate (4 * level) ' ') (margin (core b)) first ::
      rest.map (laid (List.replicate (4 * level) ' ') (margin (core b))) := by
    rw [layout, hcore, List.map_cons]
  have hr : Relaid (margin (core b)) (4 * level) first
      (laid (List.replicate (4 * level) ' ') (margin (core b)) first) :=
    relaid_laid (margin_le (hcore ▸ List.mem_cons_self)) _
  have htidy : ∀ l ∈ layout level b, Tidy l := layout_tidy
  rw [reindent_eq_block]
  rw [hlayout] at htidy ⊢
  have hnewline := fun l hl => (htidy l hl).newline
  have hb := mt (htidy _ List.mem_cons_self).isBlankLine_iff.mp (hr.ne_nil hfirst)
  exact ⟨core_block hb hnewline, .first (lines_block hnewline) hb⟩

theorem reindent_reindent {b : String} (h : StartsSoon b) (i j : Nat) :
    reindent i (reindent j b) = reindent i b := by
  rw [reindent_eq_block i, reindent_eq_block i b, layout_eq_indent i b]
  refine congrArg block (layout_of_indented (m := 4 * j) (isBlock_layout h) ?_ i)
  rw [(core_reindent h j).1, layout_eq_indent]

/-- A block that starts soon, laid out at a level after it was laid out at others, any number of
    times, is the block laid out at that level. So all nesting keeps what the last level keeps: the
    lines of the block one by one, their indentation to each other, and the blank lines between
    them. -/
theorem reindent_nested {b : String} (h : StartsSoon b) (i : Nat) :
    (∀ j, reindent i (reindent j b) = reindent i b) ∧
    ∀ levels, reindent i (nested levels b) = reindent i b ∧
      ∃ ls, lines (reindent i (nested levels b)).toList = ls ++ [[]] ∧
        List.Forall₂ (Relaid (margin (core b)) (4 * i)) (core b) ls := by
  refine ⟨reindent_reindent h i, fun levels => ?_⟩
  have hnested : reindent i (nested levels b) = reindent i b := by
    induction levels generalizing b with
    | nil => rfl
    | cons j levels ih =>
      rw [← reindent_reindent h i j]
      exact ih (core_reindent h j).2
  refine ⟨hnested, layout i b, ?_, relaid_layout i b⟩
  rw [hnested, reindent_eq_block]
  exact lines_block fun l hl => (layout_tidy l hl).newline

/-- A blank line, code with tabs and other blanks, an empty line, and deeper code. -/
def offsetBlock : String := "\t\n  if (x)\n   \u2003\n\t\x7b \n      y();\u3000\n"

theorem offsetBlock_nested :
    StartsSoon offsetBlock ∧
    reindent 2 (reindent 5 offsetBlock) = reindent 2 offsetBlock ∧
    reindent 1 (nested [3, 0, 2] offsetBlock) =
      "      if (x)\n\n    \t\x7b\n          y();\n" := by
  have hstarts : StartsSoon offsetBlock :=
    .second (l := ['\t']) (m := "  if (x)".toList) rfl (by decide) (by decide)
  refine ⟨hstarts, (reindent_nested hstarts 2).1 5, ?_⟩
  rw [((reindent_nested hstarts 1).2 [3, 0, 2]).1]
  decide +kernel

/-- Behind two blank lines the block is another one. -/
example : reindent 1 (reindent 0 "\n\nx") ≠ reindent 1 "\n\nx" := by decide +kernel

end EvaluatorGen.Text
