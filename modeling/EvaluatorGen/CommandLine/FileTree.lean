import EvaluatorGen.Text.Divide
import EvaluatorGen.Text.Utf8

/-!
File trees, and what reading, writing and making directories does to them.

A tree maps paths to files and directories; a path is the list of its components, and the
root is always a directory. A path text is followed name by name from the root or from the
working directory, and each name must be looked up in a directory: `.` stays there and `..`
goes to the parent.

`Files` is the same three operations for any monad, so that a program written over it runs
on a tree as well as on the disk.
-/
namespace EvaluatorGen

/-- Why a file operation is refused. -/
inductive FileError where
  | notFound
  | alreadyExists
  | notDirectory
  | isDirectory
  | notText
  | other (text : String)
  deriving DecidableEq, Repr

def FileError.message : FileError → String
  | .notFound => "No such file or directory (os error 2)"
  | .alreadyExists => "File exists (os error 17)"
  | .notDirectory => "Not a directory (os error 20)"
  | .isDirectory => "Is a directory (os error 21)"
  | .notText => "stream did not contain valid UTF-8"
  | .other text => text

/-- The operations on files that the program needs. -/
structure Files (m : Type → Type) where
  read : String → m (Except FileError String)
  /-- Make a directory and those around it. -/
  makeDirectory : String → m (Except FileError Unit)
  /-- Create or replace a file. -/
  write : String → String → m (Except FileError Unit)

abbrev TreePath := List String

namespace TreePath

/-- The names in a path text. What is empty, at a slash or between two, is no name. -/
def names (text : String) : List String :=
  ((Text.divide '/' text.toList).map String.ofList).filter (· != "")

def isAbsolute (text : String) : Bool := text.toList.head? == some '/'

/-- A text that ends in a slash names a directory. -/
def endsInSlash (text : String) : Bool := text.toList.getLast? == some '/'

/-- Where a name leads from a directory. The root is its own parent. -/
def step (p : TreePath) (name : String) : TreePath :=
  if name = "." then p
  else if name = ".." then p.dropLast
  else p ++ [name]

/-- Where names lead from a directory, each one looked up where the one before it led. -/
def follow (p : TreePath) (names : List String) : TreePath := names.foldl step p

/-- The names of a directory and of those around it, from the inside. The parent of a path text
    is the text without its last name, where a `.` is no name. -/
def outward (names : List String) : List (List String) :=
  let parts := names.filter (· != ".")
  names :: ((List.range parts.length).tail.map parts.take).reverse

/-- A name inside a directory. An absolute name stands for itself. -/
def join (directory name : String) : String :=
  if isAbsolute name || directory.isEmpty then name
  else if endsInSlash directory then directory ++ name
  else directory ++ "/" ++ name

def toText (p : TreePath) : String := "/".intercalate p

end TreePath

inductive FileEntry where
  | file (text : String)
  /-- A file that is no text, for a byte in it is stray. -/
  | binary (bytes : List UInt8) (h : none ∈ Text.charsOfBytes bytes)
  | directory
  deriving DecidableEq

structure FileTree where
  entries : List (TreePath × FileEntry) := []
  /-- Where a path text is followed from, unless it is absolute. -/
  workingDirectory : TreePath := []
  deriving DecidableEq

namespace FileTree

def get? (t : FileTree) (p : TreePath) : Option FileEntry :=
  if p.isEmpty then some .directory else (t.entries.find? (·.1 == p)).map (·.2)

/-- The tree with another entry at a path. -/
def set (t : FileTree) (p : TreePath) (e : FileEntry) : FileTree :=
  { t with entries := t.entries.filter (·.1 != p) ++ [(p, e)] }

/-- Where a path text is followed from. -/
def start (t : FileTree) (text : String) : TreePath :=
  if TreePath.isAbsolute text then [] else t.workingDirectory

/-- The path that a text names. -/
def pathOf (t : FileTree) (text : String) : TreePath :=
  (t.start text).follow (TreePath.names text)

/-- Follow names from a path. Whatever a name is looked up in must be a directory. -/
def walk (t : FileTree) (p : TreePath) : List String → Except FileError TreePath
  | [] => .ok p
  | name :: rest =>
    match t.get? p with
    | some .directory => t.walk (p.step name) rest
    | some _ => .error .notDirectory
    | none => .error .notFound

/-- The path that a text names, if the directories on the way to it are there. -/
def locate (t : FileTree) (text : String) : Except FileError TreePath :=
  if text.isEmpty then .error .notFound else t.walk (t.start text) (TreePath.names text)

/-- The contents of a file. -/
def read (t : FileTree) (text : String) : Except FileError String := do
  match t.get? (← t.locate text) with
  | none => .error .notFound
  | some .directory => .error .isDirectory
  | some (.file contents) =>
    if TreePath.endsInSlash text then .error .notDirectory else return contents
  | some (.binary ..) =>
    if TreePath.endsInSlash text then .error .notDirectory else .error .notText

/-- The tree with a file created or replaced. -/
def write (t : FileTree) (text contents : String) : Except FileError FileTree := do
  let p ← t.locate text
  if t.get? p = some .directory ∨ TreePath.endsInSlash text then .error .isDirectory
  return t.set p (.file contents)

/-- Run an operation that changes the tree if it succeeds. -/
def update (f : FileTree → Except FileError FileTree) : StateM FileTree (Except FileError Unit) :=
  fun t =>
    match f t with
    | .ok t' => (.ok (), t')
    | .error e => (.error e, t)

/-- The tree with a directory at the end of some names. What is there must be a directory. -/
def addDirectory (p : TreePath) (names : List String) (t : FileTree) :
    Except FileError FileTree := do
  let q ← t.walk p names
  match t.get? q with
  | none => return t.set q .directory
  | some .directory => return t
  | some _ => .error .alreadyExists

/-- Make the first directory of a list; if it has no place, make the others and try again. What
    was made before a failure stays. -/
def addDirectories (p : TreePath) : List (List String) → StateM FileTree (Except FileError Unit)
  | [] => pure (.ok ())
  | names :: around => do
    match ← update (addDirectory p names) with
    | .error .notFound =>
      match ← addDirectories p around with
      | .ok () => update (addDirectory p names)
      | .error e => return .error e
    | result => return result

/-- Make a directory, and those around it if they are not there. -/
def makeDirectory (text : String) : StateM FileTree (Except FileError Unit) := do
  if text.isEmpty then return .ok ()
  addDirectories ((← get).start text) (TreePath.outward (TreePath.names text))

/-- The file operations on a tree. -/
def files : Files (StateM FileTree) where
  read path := return (← get).read path
  makeDirectory := makeDirectory
  write path contents := update (·.write path contents)

/-- The tree that holds some files, given by path text and contents. -/
def ofFiles (files : List (String × String)) : FileTree :=
  files.foldl
    (fun t f =>
      let names := TreePath.names f.1
      let t' := (addDirectories [] (TreePath.outward names.dropLast)).run t
      t'.2.set (TreePath.follow [] names) (.file f.2))
    {}

/-- The files of a tree that are not in another one with the same contents. -/
def changesSince (t before : FileTree) : List (TreePath × String) :=
  t.entries.filterMap fun (p, e) =>
    match e with
    | .file contents => if before.get? p = some e then none else some (p, contents)
    | .binary .. | .directory => none

end FileTree

end EvaluatorGen
