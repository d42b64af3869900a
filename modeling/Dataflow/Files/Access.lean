import Dataflow.Files.Error

/-!
# Access to files

What is asked of the place where files are kept, so that the rest can be said without it.
-/

namespace Dataflow

class FileAccess (m : Type → Type) where
  read : String → m (Except FileError ByteArray)
  /-- Writes a whole file, whether or not it was there. -/
  write : String → ByteArray → m (Except FileError Unit)
  pathExists : String → m Bool
  /-- Makes a directory, and those above it where they are missing. -/
  createDirs : String → m (Except FileError Unit)

/-- The content of a file as text. -/
def readText {m : Type → Type} [Monad m] [FileAccess m] (path : String) :
    m (Except FileError String) := do
  match ← FileAccess.read path with
  | .error e => return .error e
  | .ok bytes =>
    match String.fromUTF8? bytes with
    | none => return .error .notText
    | some text => return .ok text

end Dataflow
