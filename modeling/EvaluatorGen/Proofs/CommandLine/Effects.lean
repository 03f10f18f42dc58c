import EvaluatorGen.CommandLine.Run
import EvaluatorGen.Proofs.Acceptance
import EvaluatorGen.Proofs.CommandLine.Arguments
import EvaluatorGen.Proofs.CommandLine.FileTree
import EvaluatorGen.Proofs.Header.Sizes
import EvaluatorGen.Proofs.Weights.Store

/-!
What a run of the program does to the files.

1. `prepare_ok_iff`: the artifacts are there if every stage before writing succeeds.
2. `writeArtifacts_status`: what happened when the artifacts were written with status 0.
3. `run_effects`: arguments ask for one thing; a run that is stopped before it writes leaves the
   tree as it was and says so in its status, and a compilation that ends with status 0 has written
   its artifacts and nothing else.
-/
namespace EvaluatorGen

/-- Some leaf of the graph carries a value. -/
def Graph.CarriesValues (g : Graph) : Prop := ∃ n ∈ g.leaves, n.value.isSome

namespace Weights

theorem isEmpty_insert (w : Weights) (uid : String) (values : List Binary64) :
    (w.insert uid values).isEmpty = false := by
  have hentries : ∀ new es, (WeightEntry.insert new es).isEmpty = false := by
    intro new es
    cases es with
    | nil => rfl
    | cons e es =>
      rw [WeightEntry.insert]
      split
      · rfl
      · split <;> rfl
  exact hentries ⟨uid, values⟩ w.entries

theorem isEmpty_foldlM_addLeaf {ns : List Node} {w w' : Weights}
    (h : ns.foldlM addLeaf w = .ok w') :
    w'.isEmpty = false ↔ w.isEmpty = false ∨ ∃ n ∈ ns, n.value.isSome := by
  induction ns generalizing w with
  | nil =>
    cases h
    simp
  | cons n ns ih =>
    rw [List.foldlM_cons, bind_eq_ok_iff] at h
    obtain ⟨w₁, hn, hns⟩ := h
    rw [ih hns]
    simp only [List.mem_cons, exists_eq_or_imp]
    rcases addLeaf_ok_iff.mp hn with ⟨hnone, rfl⟩ | ⟨values, hv, -, rfl⟩
    · simp [hnone]
    · simp [hv, isEmpty_insert]

theorem isEmpty_ofGraph {g : Graph} {w : Weights} (h : ofGraph g = .ok w) :
    w.isEmpty = false ↔ g.CarriesValues := by
  rw [isEmpty_foldlM_addLeaf h]
  exact or_iff_right Bool.noConfusion

end Weights

namespace CommandLine

/-- A run that is stopped before it writes: its arguments are refused, or a stage fails in
    preparing what it would write. -/
inductive Blocked (t : FileTree) (args : List String) : Prop
  | unknown {word : String} (hasks : Asks args (.unknown word))
  | misuse {reason : Misuse} (hasks : Asks args (.misuse reason))
  | unread {r : CompileRequest} (hasks : Asks args (.compile r))
    (hread : ∀ text, ¬ t.Holds r.graphPath text)
  | unparsed {r : CompileRequest} {text : String} {fault : Json.Fault}
    (hasks : Asks args (.compile r)) (hread : t.Holds r.graphPath text)
    (hparse : Graph.read text = .error fault)
  | ungenerated {r : CompileRequest} {text : String} {g : Graph} {e : GenerateError}
    (hasks : Asks args (.compile r)) (hread : t.Holds r.graphPath text)
    (hparse : Graph.read text = .ok g) (hgenerate : g.generate r.naming = .error e)
  | unextracted {r : CompileRequest} {text : String} {g : Graph} {e : WeightError}
    (hasks : Asks args (.compile r)) (hread : t.Holds r.graphPath text)
    (hparse : Graph.read text = .ok g) (hstore : Weights.ofGraph g = .error e)

/-- The path of the header in the output directory. Its name is that of the class. -/
def CompileRequest.headerPath (r : CompileRequest) (t : FileTree) : TreePath :=
  (t.pathOf r.outDirectory).inside (r.naming.className ++ ".h")

def CompileRequest.weightsPath (r : CompileRequest) (t : FileTree) : TreePath :=
  (t.pathOf r.outDirectory).inside "weights.json"

/-- What a tree is after the artifacts of a graph were written: the header, the weight file if a
    leaf carries a value, and nothing else but directories on the way to the output directory. -/
structure Written (t t' : FileTree) (r : CompileRequest) (g : Graph) (source : String)
    (w : Weights) : Prop where
  directory : r.outDirectory ≠ "" → t'.get? (t.pathOf r.outDirectory) = some .directory
  header : t'.get? (r.headerPath t) = some (.file source)
  weights : g.CarriesValues →
    ∃ text, w.toText = (.ok (), text) ∧ t'.get? (r.weightsPath t) = some (.file text)
  others : ∀ p, p ≠ r.headerPath t → (g.CarriesValues → p ≠ r.weightsPath t) →
    t'.get? p = t.get? p ∨
      t.get? p = none ∧ t'.get? p = some .directory ∧ t.OnTheWay r.outDirectory p

/-! ### Artifacts -/

theorem mapError_ok_iff {ε ε' α : Type} {x : Except ε α} {f : ε → ε'} {a : α} :
    x.mapError f = .ok a ↔ x = .ok a := by
  cases x with
  | error e => exact iff_of_false (nomatch ·) (nomatch ·)
  | ok b => exact ⟨fun h => congrArg Except.ok (Except.ok.inj h), fun h => h ▸ rfl⟩

theorem prepare_ok_iff {text : String} {naming : Naming} {a : Artifacts} :
    prepare text naming = .ok a ↔
      ∃ g gen w, Graph.read text = .ok g ∧ g.generate naming = .ok gen ∧
        Weights.ofGraph g = .ok w ∧
        a = ⟨gen.plan.headerName, gen.source, if w.isEmpty then none else some w.toText⟩ := by
  simp only [prepare, bind_eq_ok_iff, pure_eq_ok_iff, mapError_ok_iff]
  constructor
  · rintro ⟨g, hg, gen, hgen, w, hw, rfl⟩
    exact ⟨g, gen, w, hg, hgen, hw, rfl⟩
  · rintro ⟨g, gen, w, hg, hgen, hw, rfl⟩
    exact ⟨g, hg, gen, hgen, w, hw, rfl⟩

theorem status_refusal (refusal : Refusal) (path : String) : (refusal.outcome path).status ≠ 0 := by
  cases refusal <;> exact (nomatch ·)

theorem headerName_of_generate {g : Graph} {naming : Naming} {gen : Generated}
    (h : g.generate naming = .ok gen) : gen.plan.headerName = naming.className ++ ".h" := by
  cases hlower : g.lower naming with
  | error e =>
    rw [Graph.generate_of_refused hlower] at h
    cases h
  | ok plan =>
    obtain ⟨-, rfl⟩ := Graph.lower_eq_ok_iff.mp hlower
    rw [Graph.generate_of_lowered hlower] at h
    cases hrender : (g.planOf naming).render with
    | error o =>
      rw [hrender] at h
      cases h
    | ok source =>
      rw [hrender] at h
      cases h
      rfl

/-! ### Writing -/

section

variable {t : FileTree}

theorem compile_run (r : CompileRequest) (t : FileTree) :
    (compile FileTree.files r).run t =
      match t.read r.graphPath with
      | .error e => (failFile "reading" r.graphPath e, t)
      | .ok text =>
        match prepare text r.naming with
        | .error refusal => (refusal.outcome r.graphPath, t)
        | .ok a => (writeArtifacts FileTree.files r.outDirectory a).run t := by
  have hread : (FileTree.files.read r.graphPath).run t = (t.read r.graphPath, t) := rfl
  rw [compile, FileTree.run_bind, hread]
  cases t.read r.graphPath with
  | error e => rfl
  | ok text =>
    dsimp only
    cases prepare text r.naming <;> rfl

/-- A run that ends with status 0 passed its operation on the tree, where a failing operation ends
    the run with another status. -/
theorem bind_status {x : StateM FileTree (Except FileError Unit)}
    {k : Except FileError Unit → StateM FileTree Outcome} {outcome : Outcome} {t' : FileTree}
    (hrun : (x >>= k).run t = (outcome, t')) (h : outcome.status = 0)
    (hfail : ∀ e t, ((k (.error e)).run t).1.status ≠ 0) :
    ∃ t₁, x.run t = (.ok (), t₁) ∧ (k (.ok ())).run t₁ = (outcome, t') := by
  rw [FileTree.run_bind] at hrun
  cases hx : x.run t with
  | mk result t₁ =>
    rw [hx] at hrun
    cases result with
    | ok u => exact ⟨t₁, rfl, hrun⟩
    | error e =>
      have hstatus := hfail e t₁
      rw [hrun] at hstatus
      exact absurd h hstatus

/-- The steps of writing, when all of them went well. -/
theorem writeArtifacts_status {directory : String} {a : Artifacts} {outcome : Outcome}
    {t' : FileTree}
    (hrun : (writeArtifacts FileTree.files directory a).run t = (outcome, t'))
    (h : outcome.status = 0) :
    ∃ t₁ t₂, (FileTree.makeDirectory directory).run t = (.ok (), t₁) ∧
      t₁.write (TreePath.join directory a.headerName) a.source = .ok t₂ ∧
      (a.weights = none ∧ t' = t₂ ∨
        ∃ text, a.weights = some (.ok (), text) ∧
          t₂.write (TreePath.join directory "weights.json") text = .ok t') := by
  unfold writeArtifacts FileTree.files at hrun
  obtain ⟨t₁, hdir, hrun⟩ := bind_status hrun h fun _ _ => (nomatch ·)
  obtain ⟨t₂, hheader, hrun⟩ := bind_status hrun h fun _ _ => (nomatch ·)
  refine ⟨t₁, t₂, hdir, FileTree.update_eq_ok_iff.mp hheader, ?_⟩
  dsimp only at hrun
  cases hweights : a.weights with
  | none =>
    rw [hweights] at hrun
    cases hrun
    exact .inl ⟨rfl, rfl⟩
  | some file =>
    obtain ⟨result, text⟩ := file
    rw [hweights] at hrun
    obtain ⟨t₃, hwrite, hrun⟩ := bind_status hrun h fun _ _ => (nomatch ·)
    cases result with
    | error e =>
      cases hrun
      cases h
    | ok u =>
      cases hrun
      exact .inr ⟨text, rfl, FileTree.update_eq_ok_iff.mp hwrite⟩

theorem headerPath_ne_weightsPath (r : CompileRequest) (t : FileTree) :
    r.headerPath t ≠ r.weightsPath t := by
  have hheader : (r.naming.className ++ ".h").toList =
      (r.naming.className.toList ++ ['.']) ++ ['h'] := by
    rw [String.toList_append, List.append_assoc]
    rfl
  have hweights : "weights.json".toList = "weights.jso".toList ++ ['n'] := by decide
  exact TreePath.inside_ne _ hheader hweights (by decide) (by decide) (by decide)

theorem written_of_status {r : CompileRequest} {g : Graph} {gen : Generated} {w : Weights}
    {outcome : Outcome} {t' : FileTree} (hgen : g.generate r.naming = .ok gen)
    (hstore : Weights.ofGraph g = .ok w)
    (hrun : (writeArtifacts FileTree.files r.outDirectory
      ⟨gen.plan.headerName, gen.source, if w.isEmpty then none else some w.toText⟩).run t =
        (outcome, t'))
    (h : outcome.status = 0) : Written t t' r g gen.source w := by
  obtain ⟨t₁, t₂, hdir, hheader, hrest⟩ := writeArtifacts_status hrun h
  rw [headerName_of_generate hgen] at hheader
  have hmade : FileTree.AddsDirectories t t₁ (t.OnTheWay r.outDirectory) := by
    have hadds := FileTree.makeDirectory_adds t r.outDirectory
    rwa [hdir] at hadds
  have hput : ∀ p,
      t₂.get? p = if p = r.headerPath t then some (.file gen.source) else t₁.get? p := by
    rw [CompileRequest.headerPath, ← FileTree.pathOf_join,
      ← FileTree.pathOf_congr hmade.workingDirectory]
    exact FileTree.get?_write hheader
  have hthere : r.outDirectory ≠ "" → t₂.get? (t.pathOf r.outDirectory) = some .directory :=
    fun hne => FileTree.get?_write_directory hheader (FileTree.makeDirectory_there hdir hne)
  cases hempty : w.isEmpty with
  | true =>
    rw [hempty, if_pos rfl] at hrest
    obtain ⟨-, rfl⟩ := hrest.resolve_right fun ⟨_, hnone, _⟩ => nomatch hnone
    have hnot : ¬ g.CarriesValues := by
      rw [← Weights.isEmpty_ofGraph hstore, hempty]
      exact Bool.noConfusion
    refine ⟨hthere, ?_, fun hcarries => absurd hcarries hnot, ?_⟩
    · rw [hput, if_pos rfl]
    · intro p hp _
      rw [hput, if_neg hp]
      exact hmade.entries p
  | false =>
    rw [hempty, if_neg Bool.false_ne_true] at hrest
    obtain ⟨text, htext, hweights⟩ := hrest.resolve_left fun ⟨hnone, _⟩ => nomatch hnone
    have hput' : ∀ p,
        t'.get? p = if p = r.weightsPath t then some (.file text) else t₂.get? p := by
      rw [CompileRequest.weightsPath, ← FileTree.pathOf_join, ← FileTree.pathOf_congr
        ((FileTree.workingDirectory_write hheader).trans hmade.workingDirectory)]
      exact FileTree.get?_write hweights
    refine ⟨fun hne => FileTree.get?_write_directory hweights (hthere hne), ?_,
      fun _ => ⟨text, Option.some.inj htext, ?_⟩, ?_⟩
    · rw [hput', if_neg (headerPath_ne_weightsPath r t), hput, if_pos rfl]
    · rw [hput', if_pos rfl]
    · intro p hp hpw
      rw [hput', if_neg (hpw ((Weights.isEmpty_ofGraph hstore).mp hempty)), hput, if_neg hp]
      exact hmade.entries p

end

/-! ### Runs -/

theorem run_of_help {t : FileTree} {args : List String}
    (h : Asks args .help ∨ Asks args .compileHelp) :
    ((run FileTree.files args).run t).1.status = 0 ∧ ((run FileTree.files args).run t).2 = t := by
  rcases h with hasks | hasks
  · rw [run, ofArgs_of_asks hasks]
    exact ⟨rfl, rfl⟩
  · rw [run, ofArgs_of_asks hasks]
    exact ⟨rfl, rfl⟩

theorem run_of_request {t : FileTree} {args : List String} {r : CompileRequest}
    (h : Asks args (.compile r)) :
    (run FileTree.files args).run t = (compile FileTree.files r).run t := by
  rw [run, ofArgs_of_asks h]

theorem run_of_blocked {t : FileTree} {args : List String} (h : Blocked t args) :
    ((run FileTree.files args).run t).1.status ≠ 0 ∧ ((run FileTree.files args).run t).2 = t := by
  have hstop : ∀ {r text}, Asks args (.compile r) → t.Holds r.graphPath text →
      (∀ a, prepare text r.naming ≠ .ok a) →
      ((run FileTree.files args).run t).1.status ≠ 0 ∧
        ((run FileTree.files args).run t).2 = t := by
    intro r text hasks hread hno
    rw [run_of_request hasks, compile_run, FileTree.read_eq_ok_iff.mpr hread]
    dsimp only
    cases hprepare : prepare text r.naming with
    | error refusal => exact ⟨status_refusal refusal r.graphPath, rfl⟩
    | ok a => exact absurd hprepare (hno a)
  cases h with
  | unknown hasks =>
    rw [run, ofArgs_of_asks hasks]
    exact ⟨(nomatch ·), rfl⟩
  | misuse hasks =>
    rw [run, ofArgs_of_asks hasks]
    exact ⟨(nomatch ·), rfl⟩
  | @unread r hasks hread =>
    rw [run_of_request hasks, compile_run]
    cases hfile : t.read r.graphPath with
    | error e => exact ⟨(nomatch ·), rfl⟩
    | ok text => exact absurd (FileTree.read_eq_ok_iff.mp hfile) (hread text)
  | unparsed hasks hread hparse =>
    refine hstop hasks hread ?_
    intro a ha
    obtain ⟨g, gen, w, hg, -⟩ := prepare_ok_iff.mp ha
    rw [hparse] at hg
    cases hg
  | ungenerated hasks hread hparse hgenerate =>
    refine hstop hasks hread ?_
    intro a ha
    obtain ⟨g, gen, w, hg, hgen, -⟩ := prepare_ok_iff.mp ha
    rw [hparse] at hg
    cases hg
    rw [hgenerate] at hgen
    cases hgen
  | unextracted hasks hread hparse hstore =>
    refine hstop hasks hread ?_
    intro a ha
    obtain ⟨g, gen, w, hg, -, hw, -⟩ := prepare_ok_iff.mp ha
    rw [hparse] at hg
    cases hg
    rw [hstore] at hw
    cases hw

theorem written_of_run {t : FileTree} {args : List String} {r : CompileRequest}
    (hasks : Asks args (.compile r)) (h : ((run FileTree.files args).run t).1.status = 0) :
    ∃ text g gen w, t.Holds r.graphPath text ∧ Graph.read text = .ok g ∧
      g.generate r.naming = .ok gen ∧ Weights.ofGraph g = .ok w ∧
      Written t ((run FileTree.files args).run t).2 r g gen.source w := by
  rw [run_of_request hasks, compile_run] at h ⊢
  cases hread : t.read r.graphPath with
  | error e =>
    rw [hread] at h
    cases h
  | ok text =>
    rw [hread] at h
    dsimp only at h ⊢
    cases hprepare : prepare text r.naming with
    | error refusal =>
      rw [hprepare] at h
      exact absurd h (status_refusal refusal r.graphPath)
    | ok a =>
      obtain ⟨g, gen, w, hg, hgen, hw, rfl⟩ := prepare_ok_iff.mp hprepare
      rw [hprepare] at h
      exact ⟨text, g, gen, w, FileTree.read_eq_ok_iff.mp hread, hg, hgen, hw,
        written_of_status hgen hw rfl h⟩

/-- What a run does to the files, for any arguments and any tree. The arguments ask for exactly
    one thing. A run that only prints help leaves the tree as it was, and so does one that is
    stopped before it writes, which ends with a status that is not zero. A compilation that ends
    with status zero has gone through every stage and leaves its artifacts, the header and the
    weight file if a leaf carries a value; all other files are as they were. -/
theorem run_effects (t : FileTree) (args : List String) :
    (∃! c, Asks args c) ∧
    (Asks args .help ∨ Asks args .compileHelp → ((run FileTree.files args).run t).1.status = 0 ∧
      ((run FileTree.files args).run t).2 = t) ∧
    (Blocked t args → ((run FileTree.files args).run t).1.status ≠ 0 ∧
      ((run FileTree.files args).run t).2 = t) ∧
    ∀ r, Asks args (.compile r) → ((run FileTree.files args).run t).1.status = 0 →
      ∃ text g gen w, t.Holds r.graphPath text ∧ Graph.read text = .ok g ∧
        g.generate r.naming = .ok gen ∧ Weights.ofGraph g = .ok w ∧
        Written t ((run FileTree.files args).run t).2 r g gen.source w := by
  refine ⟨?_, run_of_help, run_of_blocked, fun _ => written_of_run⟩
  refine ⟨Command.ofArgs args, ofArgs_eq_iff.mp rfl, ?_⟩
  intro c hasks
  exact (ofArgs_of_asks hasks).symm

/-- A graph file with one leaf, which carries a value, and its output; a header of an earlier run
    and a file that has nothing to do with them. -/
def oneLeaf : FileTree := .ofFiles
  [("g.json",
    "\x7b\"nodes\": [" ++
      "\x7b\"uid\": \"b\", \"type\": \"constant\", \"shape\": [1], \"value\": [1.5]\x7d, " ++
      "\x7b\"uid\": \"y\", \"type\": \"output\", \"shape\": [1], \"operands\": [0]\x7d]\x7d"),
    ("old/Net.h", "stale"),
    ("notes.txt", "keep")]

/-- Options on both sides of the graph, two of them given twice, and a way through a directory
    that is not there yet. -/
def oneLeafArgs : List String :=
  ["compile", "--out", "lost", "--class", "--help", "g.json", "--class", "Net",
    "-o", "new/../old", "--namespace", "nets"]

theorem oneLeaf_run_effects :
    (((run FileTree.files ["compile", "-o", "-h", "--help"]).run oneLeaf).1.status = 0 ∧
      ((run FileTree.files ["compile", "-o", "-h", "--help"]).run oneLeaf).2 = oneLeaf) ∧
    (((run FileTree.files ["compile", "g.json", "--class"]).run oneLeaf).1.status ≠ 0 ∧
      ((run FileTree.files ["compile", "g.json", "--class"]).run oneLeaf).2 = oneLeaf) ∧
    (((run FileTree.files ["compile", "h.json"]).run oneLeaf).1.status ≠ 0 ∧
      ((run FileTree.files ["compile", "h.json"]).run oneLeaf).2 = oneLeaf) ∧
    ((run FileTree.files oneLeafArgs).run oneLeaf).1.status = 0 ∧
    (∃ text g gen w, oneLeaf.Holds "g.json" text ∧ Graph.read text = .ok g ∧
      g.generate ⟨"Net", "nets"⟩ = .ok gen ∧ Weights.ofGraph g = .ok w ∧
      Written oneLeaf ((run FileTree.files oneLeafArgs).run oneLeaf).2
        ⟨"g.json", "new/../old", ⟨"Net", "nets"⟩⟩ g gen.source w) ∧
    ((run FileTree.files oneLeafArgs).run oneLeaf).2.get? ["notes.txt"] =
      some (.file "keep") := by
  have hhelp : Asks ["compile", "-o", "-h", "--help"] .compileHelp :=
    ofArgs_eq_iff.mp (by decide +kernel)
  have hmisuse : Asks ["compile", "g.json", "--class"] (.misuse (.missingValue "--class")) :=
    ofArgs_eq_iff.mp (by decide +kernel)
  have hother : Asks ["compile", "h.json"] (.compile ⟨"h.json", ".", {}⟩) :=
    ofArgs_eq_iff.mp (by decide +kernel)
  have hrequest : Asks oneLeafArgs (.compile ⟨"g.json", "new/../old", ⟨"Net", "nets"⟩⟩) :=
    ofArgs_eq_iff.mp (by decide +kernel)
  have hunread : ∀ text, ¬ oneLeaf.Holds "h.json" text := by
    have hnone : oneLeaf.get? (oneLeaf.pathOf "h.json") = none := by decide +kernel
    intro text hholds
    rw [hholds.file] at hnone
    cases hnone
  have hstatus : ((run FileTree.files oneLeafArgs).run oneLeaf).1.status = 0 := by decide +kernel
  have hwritten := (run_effects oneLeaf oneLeafArgs).2.2.2 _ hrequest hstatus
  refine ⟨(run_effects oneLeaf _).2.1 (.inr hhelp), (run_effects oneLeaf _).2.2.1 (.misuse hmisuse),
    (run_effects oneLeaf _).2.2.1 (.unread hother hunread), hstatus, hwritten, ?_⟩
  obtain ⟨text, g, gen, w, -, -, -, -, hafter⟩ := hwritten
  have hkeep : oneLeaf.get? ["notes.txt"] = some (.file "keep") := by decide +kernel
  rcases hafter.others ["notes.txt"] (by decide +kernel) (fun _ => by decide +kernel) with
    hsame | ⟨hnone, -, -⟩
  · exact hsame.trans hkeep
  · rw [hkeep] at hnone
    cases hnone

end CommandLine

end EvaluatorGen
