import EvaluatorGen.CommandLine.Run

/-!
The program: arguments and files in, an exit status and a report out.
-/
namespace EvaluatorGen

def FileError.ofIOError : IO.Error → FileError
  | .noFileOrDirectory .. => .notFound
  | .alreadyExists .. => .alreadyExists
  | .inappropriateType _ 21 _ => .isDirectory
  | .inappropriateType .. => .notDirectory
  | e => .other (toString e)

/-- Run an action on the disk and keep its failure as a value. -/
def attempt {α : Type} (action : IO α) : IO (Except FileError α) := do
  try
    return .ok (← action)
  catch e => return .error (.ofIOError e)

/-- Make a directory; the directories around it are made only if one of them is missing. -/
def makeDiskDirectory (path : String) : IO (Except FileError Unit) := do
  if path.isEmpty then return .ok ()
  match ← attempt (IO.FS.createDir path) with
  | .error .notFound | .error .alreadyExists => attempt (IO.FS.createDirAll path)
  | result => return result

/-- The text of a file on the disk. -/
def readDiskFile (path : String) : IO (Except FileError String) := do
  match ← attempt (IO.FS.readBinFile path) with
  | .error e => return .error e
  | .ok bytes => return (String.fromUTF8? bytes).elim (.error .notText) .ok

/-- The file operations on the disk. -/
def diskFiles : Files IO where
  read := readDiskFile
  makeDirectory := makeDiskDirectory
  write path contents := attempt (IO.FS.writeFile path contents)

end EvaluatorGen

def main (args : List String) : IO UInt32 := do
  let outcome ← EvaluatorGen.CommandLine.run EvaluatorGen.diskFiles args
  IO.eprint outcome.report
  return outcome.status
