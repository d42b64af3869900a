import Dataflow.Description.Document
import Dataflow.Files.Access
import Dataflow.Files.Path

/-!
# Descriptions in files
-/

namespace Dataflow.Description

variable {m : Type → Type} [Monad m] [FileAccess m]

def load (path : String) : m (Except DescriptionError Description) := do
  match ← readText path with
  | .error cause => return .error (.reading path cause)
  | .ok text => return ofToml text

/-- Makes the directory that is to hold the file, if it is missing. -/
def prepareParent (path : String) : m (Except DescriptionError Unit) := do
  match Path.parent? path with
  | none => return .ok ()
  | some above =>
    if above.isEmpty || (← FileAccess.pathExists above) then return .ok ()
    else
      match ← FileAccess.createDirs above with
      | .ok () => return .ok ()
      | .error cause => return .error (.creating above cause)

def save (d : Description) (path : String) : m (Except DescriptionError Unit) := do
  match ← prepareParent path with
  | .error e => return .error e
  | .ok () =>
    match d.toToml with
    | .error e => return .error e
    | .ok text =>
      match ← FileAccess.write path text.toUTF8 with
      | .ok () => return .ok ()
      | .error cause => return .error (.writing path cause)

end Dataflow.Description
