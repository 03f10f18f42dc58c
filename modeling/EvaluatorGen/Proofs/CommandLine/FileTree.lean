import EvaluatorGen.CommandLine.FileTree
import EvaluatorGen.Proofs.Lowering.Rules
import EvaluatorGen.Proofs.Text.Layout

/-!
What the operations on a file tree leave as it is.

1. `get?_set`: a tree is seen through its look-up.
2. `walk_eq_ok_iff`: names can be followed exactly if each is looked up in a directory, and they
   lead where `follow` says, which does not look at the tree. From it, when an operation
   succeeds: `read_eq_ok_iff`, `addDirectory_eq_ok_iff`, `write_eq_ok_iff`.
3. `makeDirectory_adds`: making a directory, well or badly ended, adds directories on the way to
   it and changes nothing that is there. `get?_write`: writing a file changes that file alone.
4. `pathOf_join`: a name joined to a directory is followed from the path of that directory.
   `inside_ne`: names whose last characters differ are different files.
-/
namespace EvaluatorGen

/-! ### Names -/

namespace TreePath

variable {p : TreePath}

theorem follow_append (p : TreePath) (ns ms : List String) :
    p.follow (ns ++ ms) = (p.follow ns).follow ms :=
  List.foldl_append

theorem step_of_plain {name : String} (hdot : name ≠ ".") (hparent : name ≠ "..") :
    p.step name = p ++ [name] := by
  rw [step, if_neg hdot, if_neg hparent]

theorem follow_filter (p : TreePath) (ns : List String) :
    p.follow (ns.filter (· != ".")) = p.follow ns := by
  induction ns generalizing p with
  | nil => rfl
  | cons n ns ih =>
    by_cases hdot : n = "."
    · subst hdot
      exact ih p
    · rw [List.filter_cons, if_pos (bne_iff_ne.mpr hdot)]
      exact ih (p.step n)

/-- The directories around a directory are on the way to it. -/
theorem follow_of_mem_outward {ns ms : List String} (h : ms ∈ outward ns) (p : TreePath) :
    ∃ front, front <+: ns ∧ p.follow ms = p.follow front := by
  rcases List.mem_cons.mp h with rfl | hmem
  · exact ⟨ms, List.prefix_refl ms, rfl⟩
  · obtain ⟨n, -, rfl⟩ := List.mem_map.mp (List.mem_reverse.mp hmem)
    obtain ⟨front, hfront, htake⟩ :=
      List.prefix_filter_iff.mp (List.take_prefix n (ns.filter (· != ".")))
    exact ⟨front, hfront, by rw [htake, follow_filter]⟩

end TreePath

namespace FileTree

variable {t t' : FileTree} {p q : TreePath} {text contents : String} {new : TreePath → Prop}

/-! ### Look-up -/

theorem get?_nil (t : FileTree) : t.get? [] = some .directory := rfl

theorem get?_set (t : FileTree) (e : FileEntry) (hq : q ≠ []) :
    (t.set p e).get? q = if q = p then some e else t.get? q := by
  have hempty : ∀ u : FileTree, u.get? q = (u.entries.find? (·.1 == q)).map (·.2) :=
    fun u => if_neg (by simpa using hq)
  rw [hempty, hempty, set, List.find?_append]
  by_cases h : q = p
  · subst h
    have hnone : (t.entries.filter (·.1 != q)).find? (·.1 == q) = none := by
      rw [List.find?_eq_none]
      intro x hx
      simpa using (List.mem_filter.mp hx).2
    rw [hnone, if_pos rfl]
    simp
  · have hkeep : (t.entries.filter (·.1 != p)).find? (·.1 == q) =
        t.entries.find? (·.1 == q) := by
      rw [List.find?_filter]
      congr 1
      funext x
      by_cases hx : x.1 = q <;> simp [hx, h]
    have hne : (p == q) = false := by simpa using Ne.symm h
    rw [hkeep, if_neg h]
    simp [hne]

/-! ### Following names -/

/-- Whatever the names are looked up in, from `p`, is a directory. -/
def Passes (t : FileTree) (p : TreePath) (ns : List String) : Prop :=
  ∀ front, front <+: ns → front ≠ ns → t.get? (p.follow front) = some .directory

/-- A path text can be followed to its end. -/
def Reaches (t : FileTree) (text : String) : Prop :=
  text ≠ "" ∧ t.Passes (t.start text) (TreePath.names text)

/-- A path to which the first names of a text lead. -/
def OnTheWay (t : FileTree) (text : String) (p : TreePath) : Prop :=
  ∃ front, front <+: TreePath.names text ∧ p = (t.start text).follow front

theorem passes_nil (t : FileTree) (p : TreePath) : t.Passes p [] :=
  fun _ hfront hne => absurd (List.prefix_nil.mp hfront) hne

theorem passes_cons {n : String} {ns : List String} :
    t.Passes p (n :: ns) ↔ t.get? p = some .directory ∧ t.Passes (p.step n) ns := by
  constructor
  · intro h
    refine ⟨h [] List.nil_prefix (List.cons_ne_nil n ns).symm, ?_⟩
    intro front hfront hne
    exact h (n :: front) (List.cons_prefix_cons.mpr ⟨rfl, hfront⟩)
      fun heq => hne (List.cons.inj heq).2
  · intro ⟨hdir, hrest⟩ front hfront hne
    cases front with
    | nil => exact hdir
    | cons m front =>
      obtain ⟨rfl, hfront'⟩ := List.cons_prefix_cons.mp hfront
      exact hrest front hfront' fun heq => hne (congrArg (m :: ·) heq)

theorem walk_eq_ok_iff {ns : List String} :
    t.walk p ns = .ok q ↔ t.Passes p ns ∧ q = p.follow ns := by
  induction ns generalizing p with
  | nil =>
    constructor
    · intro h
      cases h
      exact ⟨passes_nil t _, rfl⟩
    · intro h
      exact congrArg Except.ok h.2.symm
  | cons n ns ih =>
    rw [walk, passes_cons]
    constructor
    · intro h
      split at h
      · rename_i hdir
        obtain ⟨hrest, hq⟩ := ih.mp h
        exact ⟨⟨hdir, hrest⟩, hq⟩
      all_goals cases h
    · intro ⟨⟨hdir, hrest⟩, hq⟩
      rw [hdir]
      exact ih.mpr ⟨hrest, hq⟩

theorem locate_eq_ok_iff : t.locate text = .ok q ↔ t.Reaches text ∧ q = t.pathOf text := by
  unfold locate
  by_cases hempty : text = ""
  · subst hempty
    exact iff_of_false (nomatch ·) fun h => h.1.1 rfl
  · rw [if_neg (by simpa using hempty), walk_eq_ok_iff]
    exact and_congr_left fun _ => (and_iff_right hempty).symm

/-! ### Reading -/

/-- A path text leads to a file with these contents. -/
structure Holds (t : FileTree) (text contents : String) : Prop where
  reaches : t.Reaches text
  file : t.get? (t.pathOf text) = some (.file contents)
  bare : TreePath.endsInSlash text = false

theorem read_eq_ok_iff : t.read text = .ok contents ↔ t.Holds text contents := by
  rw [read, bind_eq_ok_iff]
  constructor
  · intro ⟨q, hlocate, h⟩
    obtain ⟨hreaches, rfl⟩ := locate_eq_ok_iff.mp hlocate
    split at h
    · cases h
    · cases h
    · rename_i hfile
      split at h
      · cases h
      · rename_i hbare
        cases h
        exact ⟨hreaches, hfile, Bool.eq_false_iff.mpr hbare⟩
    · split at h <;> cases h
  · intro h
    refine ⟨_, locate_eq_ok_iff.mpr ⟨h.reaches, rfl⟩, ?_⟩
    rw [h.file]
    exact if_neg (Bool.eq_false_iff.mp h.bare)

/-! ### Making directories -/

theorem run_bind {α β : Type} (x : StateM FileTree α) (k : α → StateM FileTree β)
    (t : FileTree) : (x >>= k).run t = (k (x.run t).1).run (x.run t).2 := rfl

/-- A tree has the entries of another one and, where nothing was at some of the paths,
    directories. -/
structure AddsDirectories (t t' : FileTree) (new : TreePath → Prop) : Prop where
  workingDirectory : t'.workingDirectory = t.workingDirectory
  entries : ∀ p, t'.get? p = t.get? p ∨ t.get? p = none ∧ t'.get? p = some .directory ∧ new p

/-- `x` adds directories at some of the paths, however it ends. -/
def OnlyAdds {α : Type} (x : StateM FileTree α) (new : TreePath → Prop) : Prop :=
  ∀ t, AddsDirectories t (x.run t).2 new

theorem AddsDirectories.refl (t : FileTree) (new : TreePath → Prop) : AddsDirectories t t new :=
  ⟨rfl, fun _ => .inl rfl⟩

theorem AddsDirectories.trans {t₁ t₂ t₃ : FileTree} (h₁ : AddsDirectories t₁ t₂ new)
    (h₂ : AddsDirectories t₂ t₃ new) : AddsDirectories t₁ t₃ new := by
  refine ⟨h₂.workingDirectory.trans h₁.workingDirectory, ?_⟩
  intro p
  rcases h₂.entries p with hsame | ⟨hnone, hdir, hp⟩
  · rw [hsame]
    exact h₁.entries p
  · rcases h₁.entries p with hsame | ⟨-, hsome, -⟩
    · exact .inr ⟨hsame ▸ hnone, hdir, hp⟩
    · rw [hsome] at hnone
      cases hnone

namespace OnlyAdds

variable {α β : Type}

theorem pure (a : α) : OnlyAdds (pure a : StateM FileTree α) new :=
  fun t => AddsDirectories.refl t new

theorem bind {x : StateM FileTree α} {k : α → StateM FileTree β} (hx : OnlyAdds x new)
    (hk : ∀ a, OnlyAdds (k a) new) : OnlyAdds (x >>= k) new :=
  fun t => (hx t).trans (hk (x.run t).1 (x.run t).2)

theorem mono {x : StateM FileTree α} {new' : TreePath → Prop} (hx : OnlyAdds x new)
    (h : ∀ p, new p → new' p) : OnlyAdds x new' :=
  fun t => ⟨(hx t).workingDirectory,
    fun p => ((hx t).entries p).imp_right fun hp => ⟨hp.1, hp.2.1, h p hp.2.2⟩⟩

end OnlyAdds

section

variable {f : FileTree → Except FileError FileTree}

theorem update_of_ok (h : f t = .ok t') : (update f).run t = (.ok (), t') := by
  have hrun : (update f).run t = update f t := rfl
  rw [hrun, update, h]

theorem update_of_error {e : FileError} (h : f t = .error e) :
    (update f).run t = (.error e, t) := by
  have hrun : (update f).run t = update f t := rfl
  rw [hrun, update, h]

theorem update_eq_ok_iff : (update f).run t = (.ok (), t') ↔ f t = .ok t' := by
  refine ⟨?_, update_of_ok⟩
  intro h
  cases hf : f t with
  | ok t₁ =>
    rw [update_of_ok hf] at h
    cases h
    rfl
  | error e =>
    rw [update_of_error hf] at h
    cases h

theorem update_adds (h : ∀ {t t'}, f t = .ok t' → AddsDirectories t t' new) :
    OnlyAdds (update f) new := by
  intro t
  cases hf : f t with
  | ok t' =>
    rw [update_of_ok hf]
    exact h hf
  | error e =>
    rw [update_of_error hf]
    exact .refl t new

end

theorem addDirectory_eq_ok_iff {ns : List String} :
    addDirectory p ns t = .ok t' ↔ t.Passes p ns ∧
      (t.get? (p.follow ns) = none ∧ t' = t.set (p.follow ns) .directory ∨
        t.get? (p.follow ns) = some .directory ∧ t' = t) := by
  rw [addDirectory, bind_eq_ok_iff]
  constructor
  · intro ⟨q, hwalk, h⟩
    obtain ⟨hway, rfl⟩ := walk_eq_ok_iff.mp hwalk
    refine ⟨hway, ?_⟩
    split at h
    · rename_i hnone
      cases h
      exact .inl ⟨hnone, rfl⟩
    · rename_i hdir
      cases h
      exact .inr ⟨hdir, rfl⟩
    · cases h
  · intro ⟨hway, h⟩
    refine ⟨_, walk_eq_ok_iff.mpr ⟨hway, rfl⟩, ?_⟩
    rcases h with ⟨hnone, rfl⟩ | ⟨hdir, rfl⟩
    · rw [hnone]
      rfl
    · rw [hdir]
      rfl

/-- What an added directory does to the look-up. -/
theorem get?_addDirectory {ns : List String} (h : addDirectory p ns t = .ok t') (q : TreePath) :
    t'.get? q = if q = p.follow ns then some .directory else t.get? q := by
  rcases (addDirectory_eq_ok_iff.mp h).2 with ⟨hnone, rfl⟩ | ⟨hdir, rfl⟩
  · by_cases hq : q = []
    · subst hq
      split
      · rfl
      · rfl
    · exact get?_set t _ hq
  · split
    · rename_i heq
      rw [heq, hdir]
    · rfl

theorem addDirectory_adds {ns : List String} (h : addDirectory p ns t = .ok t') :
    AddsDirectories t t' (· = p.follow ns) := by
  have hget := get?_addDirectory h
  rcases (addDirectory_eq_ok_iff.mp h).2 with ⟨hnone, rfl⟩ | ⟨-, rfl⟩
  · refine ⟨rfl, ?_⟩
    intro q
    rw [hget]
    split
    · rename_i heq
      exact .inr ⟨heq ▸ hnone, rfl, heq⟩
    · exact .inl rfl
  · exact .refl _ _

theorem addDirectories_adds (p : TreePath) (chain : List (List String)) :
    OnlyAdds (addDirectories p chain) fun q => ∃ ns ∈ chain, q = p.follow ns := by
  induction chain with
  | nil => exact .pure _
  | cons ns around ih =>
    have hfirst : OnlyAdds (update (addDirectory p ns))
        fun q => ∃ ms ∈ ns :: around, q = p.follow ms :=
      (update_adds addDirectory_adds).mono fun q hq => ⟨ns, List.mem_cons_self, hq⟩
    have hothers : OnlyAdds (addDirectories p around)
        fun q => ∃ ms ∈ ns :: around, q = p.follow ms :=
      ih.mono fun q ⟨ms, hms, hq⟩ => ⟨ms, List.mem_cons_of_mem ns hms, hq⟩
    rw [addDirectories]
    refine hfirst.bind ?_
    intro result
    split
    · refine hothers.bind ?_
      intro result
      cases result with
      | ok u => exact hfirst
      | error e => exact .pure _
    · exact .pure _

/-- If it ends well, there is a directory at the end of the first names. -/
theorem addDirectories_there {ns : List String} {around : List (List String)}
    (h : (addDirectories p (ns :: around)).run t = (.ok (), t')) :
    t'.get? (p.follow ns) = some .directory := by
  have hthere : ∀ {t}, (update (addDirectory p ns)).run t = (.ok (), t') →
      t'.get? (p.follow ns) = some .directory := by
    intro t hadd
    rw [get?_addDirectory (update_eq_ok_iff.mp hadd), if_pos rfl]
  rw [addDirectories, run_bind] at h
  cases hfirst : addDirectory p ns t with
  | ok t₁ =>
    have hadd := update_of_ok hfirst
    rw [hadd] at h
    cases h
    exact hthere hadd
  | error e =>
    rw [update_of_error hfirst] at h
    cases e with
    | notFound =>
      dsimp only at h
      rw [run_bind] at h
      cases hothers : (addDirectories p around).run t with
      | mk result t₁ =>
        rw [hothers] at h
        cases result with
        | ok u => exact hthere h
        | error e => cases h
    | _ => cases h

/-- However it ends, making a directory adds directories on the way to it. -/
theorem makeDirectory_adds (t : FileTree) (text : String) :
    AddsDirectories t ((makeDirectory text).run t).2 (t.OnTheWay text) := by
  unfold makeDirectory
  split
  · exact .refl t _
  · refine (addDirectories_adds _ _).mono ?_ t
    intro q ⟨ns, hns, hq⟩
    obtain ⟨front, hfront, hfollow⟩ := TreePath.follow_of_mem_outward hns (t.start text)
    exact ⟨front, hfront, hq.trans hfollow⟩

theorem makeDirectory_there (h : (makeDirectory text).run t = (.ok (), t')) (hne : text ≠ "") :
    t'.get? (t.pathOf text) = some .directory := by
  unfold makeDirectory at h
  rw [if_neg (by simpa using hne)] at h
  exact addDirectories_there h

/-! ### Writing -/

theorem write_eq_ok_iff :
    t.write text contents = .ok t' ↔ t.Reaches text ∧
      (t.get? (t.pathOf text) ≠ some .directory ∧ TreePath.endsInSlash text = false) ∧
        t' = t.set (t.pathOf text) (.file contents) := by
  rw [write, bind_eq_ok_iff]
  constructor
  · intro ⟨q, hlocate, h⟩
    obtain ⟨hreaches, rfl⟩ := locate_eq_ok_iff.mp hlocate
    refine ⟨hreaches, ?_⟩
    split at h
    · cases h
    · rename_i hfree
      rw [not_or] at hfree
      cases h
      exact ⟨⟨hfree.1, Bool.eq_false_iff.mpr hfree.2⟩, rfl⟩
  · intro ⟨hreaches, ⟨hdir, hbare⟩, ht⟩
    refine ⟨_, locate_eq_ok_iff.mpr ⟨hreaches, rfl⟩, ?_⟩
    rw [if_neg (not_or.mpr ⟨hdir, Bool.eq_false_iff.mp hbare⟩), ht]
    rfl

/-- A written file holds what was written, and everything else is as it was. -/
theorem get?_write (h : t.write text contents = .ok t') (q : TreePath) :
    t'.get? q = if q = t.pathOf text then some (.file contents) else t.get? q := by
  obtain ⟨-, ⟨hdir, -⟩, rfl⟩ := write_eq_ok_iff.mp h
  by_cases hq : q = []
  · subst hq
    have hroot : [] ≠ t.pathOf text := by
      intro heq
      rw [← heq] at hdir
      exact hdir (get?_nil t)
    rw [if_neg hroot, get?_nil, get?_nil]
  · exact get?_set t _ hq

/-- No directory is written over. -/
theorem get?_write_directory (h : t.write text contents = .ok t')
    (hq : t.get? q = some .directory) : t'.get? q = some .directory := by
  rw [get?_write h, if_neg ?_, hq]
  intro heq
  exact (write_eq_ok_iff.mp h).2.1.1 (heq ▸ hq)

theorem pathOf_congr (h : t'.workingDirectory = t.workingDirectory) (text : String) :
    t'.pathOf text = t.pathOf text := by
  rw [pathOf, pathOf, start, start, h]

theorem workingDirectory_write (h : t.write text contents = .ok t') :
    t'.workingDirectory = t.workingDirectory := by
  rw [(write_eq_ok_iff.mp h).2.2]
  rfl

end FileTree

/-! ### Names inside a directory -/

namespace TreePath

/-- The path of a name inside the directory at `p`. -/
def inside (p : TreePath) (name : String) : TreePath :=
  if isAbsolute name then follow [] (names name) else p.follow (names name)

theorem names_append_slash {text : String} {a b : List Char} (h : text.toList = a ++ '/' :: b) :
    names text = names (String.ofList a) ++ names (String.ofList b) := by
  rw [names, names, names, h, Text.divide_append_sep, List.map_append, List.filter_append,
    String.toList_ofList, String.toList_ofList]

theorem names_join_slash {directory : String} (h : endsInSlash directory) (name : String) :
    names (directory ++ name) = names directory ++ names name := by
  have hlast : directory.toList.getLast? = some '/' := beq_iff_eq.mp h
  obtain ⟨s, hs⟩ := List.getLast?_eq_some_iff.mp hlast
  have hjoined : (directory ++ name).toList = s ++ '/' :: name.toList := by
    rw [String.toList_append, hs, List.append_assoc]
    rfl
  have hnone : names (String.ofList []) = [] := rfl
  rw [names_append_slash hjoined, names_append_slash hs, hnone, List.append_nil,
    String.ofList_toList]

theorem names_join (directory name : String) :
    names (directory ++ "/" ++ name) = names directory ++ names name := by
  have hjoined : (directory ++ "/" ++ name).toList = directory.toList ++ '/' :: name.toList := by
    rw [String.toList_append, String.toList_append, List.append_assoc]
    rfl
  rw [names_append_slash hjoined, String.ofList_toList, String.ofList_toList]

theorem isAbsolute_append {a : String} (h : a ≠ "") (b : String) :
    isAbsolute (a ++ b) = isAbsolute a := by
  have hne : a.toList ≠ [] := fun hnil => h (String.toList_inj.mp hnil)
  rw [isAbsolute, isAbsolute, String.toList_append, List.head?_append_of_ne_nil _ hne]

end TreePath

/-- What a joined text names: the directory is followed first, and then the name. -/
theorem FileTree.pathOf_join (t : FileTree) (directory name : String) :
    t.pathOf (TreePath.join directory name) = (t.pathOf directory).inside name := by
  unfold TreePath.join TreePath.inside
  cases habs : TreePath.isAbsolute name with
  | true => rw [Bool.true_or, if_pos rfl, if_pos rfl, pathOf, start, habs, if_pos rfl]
  | false =>
    rw [Bool.false_or, if_neg Bool.false_ne_true]
    by_cases hempty : directory = ""
    · subst hempty
      have hhere : t.pathOf "" = t.workingDirectory := rfl
      have hnone : "".isEmpty = true := rfl
      rw [if_pos hnone, hhere, pathOf, start, habs, if_neg Bool.false_ne_true]
    · have hstart (rest : String) : t.start (directory ++ rest) = t.start directory := by
        rw [start, start, TreePath.isAbsolute_append hempty]
      rw [if_neg (by simpa using hempty)]
      split
      · rename_i hslash
        rw [pathOf, pathOf, hstart, TreePath.names_join_slash hslash, TreePath.follow_append]
      · rw [pathOf, pathOf, TreePath.names_join, String.append_assoc, hstart,
          TreePath.follow_append]

example : FileTree.pathOf ⟨[], ["home"]⟩ (TreePath.join "out/./" "../../x.h") = ["x.h"] := by
  decide +kernel

/-! ### The last component -/

theorem Text.divide_append_singleton {sep c : Char} (h : c ≠ sep) (t : List Char) :
    ∃ parts part, divide sep (t ++ [c]) = parts ++ [part ++ [c]] := by
  induction t with
  | nil => exact ⟨[], [], by rw [List.nil_append, divide, if_neg h]; rfl⟩
  | cons x t ih =>
    obtain ⟨parts, part, heq⟩ := ih
    rw [List.cons_append, divide, heq]
    split
    · exact ⟨[] :: parts, part, rfl⟩
    · cases parts with
      | nil => exact ⟨[], x :: part, rfl⟩
      | cons p parts => exact ⟨(x :: p) :: parts, part, rfl⟩

namespace TreePath

theorem names_of_last {text : String} {s : List Char} {c : Char} (htext : text.toList = s ++ [c])
    (hslash : c ≠ '/') : ∃ ns part, names text = ns ++ [String.ofList (part ++ [c])] := by
  obtain ⟨parts, part, hdivide⟩ := Text.divide_append_singleton hslash s
  refine ⟨(parts.map String.ofList).filter (· != ""), part, ?_⟩
  have hempty : String.ofList (part ++ [c]) ≠ "" := by
    intro h
    have hchars := congrArg String.toList h
    rw [String.toList_ofList] at hchars
    exact List.append_ne_nil_of_right_ne_nil part (List.cons_ne_nil c []) hchars
  rw [names, htext, hdivide, List.map_append, List.map_singleton, List.filter_append,
    List.filter_cons, if_pos (bne_iff_ne.mpr hempty)]
  rfl

/-- The last component of a path has the last character of the name. -/
theorem inside_of_last {name : String} {s : List Char} {c : Char} (hname : name.toList = s ++ [c])
    (hslash : c ≠ '/') (hdot : c ≠ '.') (p : TreePath) :
    ∃ q part, p.inside name = q ++ [String.ofList (part ++ [c])] := by
  obtain ⟨ns, part, hnames⟩ := names_of_last hname hslash
  have hplain : ∀ dots : List Char,
      String.ofList (part ++ [c]) ≠ String.ofList (dots ++ ['.']) := by
    intro dots h
    have hchars := String.ofList_injective h
    exact hdot (List.singleton_inj.mp (List.append_inj' hchars rfl).2)
  have hlast (q : TreePath) :
      q.follow (names name) = q.follow ns ++ [String.ofList (part ++ [c])] := by
    rw [hnames, follow_append]
    exact step_of_plain (hplain []) (hplain ['.'])
  unfold inside
  split
  · exact ⟨_, part, hlast []⟩
  · exact ⟨_, part, hlast p⟩

theorem inside_ne {a b : String} {s s' : List Char} {c d : Char} (p : TreePath)
    (ha : a.toList = s ++ [c]) (hb : b.toList = s' ++ [d]) (hc : c ≠ '/' ∧ c ≠ '.')
    (hd : d ≠ '/' ∧ d ≠ '.') (hne : c ≠ d) : p.inside a ≠ p.inside b := by
  obtain ⟨q, part, hq⟩ := inside_of_last ha hc.1 hc.2 p
  obtain ⟨q', part', hq'⟩ := inside_of_last hb hd.1 hd.2 p
  intro heq
  rw [hq, hq'] at heq
  have hlast := (List.append_inj' heq rfl).2
  have hchars := String.ofList_injective (List.singleton_inj.mp hlast)
  exact hne (List.singleton_inj.mp (List.append_inj' hchars rfl).2)

end TreePath

end EvaluatorGen
