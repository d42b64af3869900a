import Dataflow.Files.Access
import Dataflow.Files.Path

/-!
# File trees

A tree of directories and files as a value, for work on files without an operating system. A walk along
a path remembers the way back, so that two dots lead to the directory above.
-/

namespace Dataflow

inductive FileTree where
  | file (content : ByteArray)
  | directory (entries : List (String × FileTree))

namespace FileTree

def empty : FileTree := directory []

/-- A file has no entries. -/
def entries : FileTree → List (String × FileTree)
  | file _ => []
  | directory entries => entries

/-- Puts a file or a directory in the place of what the names lead to. -/
def put (e : FileTree) : List String → FileTree → FileTree
  | [], _ => e
  | name :: rest, t =>
    let below := (t.entries.lookup name).getD empty
    directory ((name, put e rest below) :: t.entries.filter (·.1 != name))

/-- The names on the way to a place, the last one first, each with what is there. -/
abbrev Trail := List (String × Option FileTree)

/-- What is at the end of a trail; the top itself is always there. -/
def get? (t : FileTree) : Trail → Option FileTree
  | [] => some t
  | (_, e) :: _ => e

def putAt (t : FileTree) (trail : Trail) (e : FileTree) : FileTree :=
  put e (trail.reverse.map (·.1)) t

/-- The longest name of an entry, and the longest path, in bytes. -/
def nameLimit : Nat := 255

def pathLimit : Nat := 4095

/-- Goes on by one name from what must be a directory. -/
def enter (t : FileTree) (trail : Trail) (name : String) : Except FileError Trail :=
  match t.get? trail with
  | none => .error .notFound
  | some (.file _) => .error .notDirectory
  | some (.directory entries) =>
    if name.isEmpty || name == "." then .ok trail
    else if name == ".." then .ok trail.tail
    else if nameLimit < name.utf8ByteSize then .error .nameTooLong
    else .ok ((name, entries.lookup name) :: trail)

/-- The trail along a row of names. All but the last of them must be there. -/
def walk (t : FileTree) (names : List String) : Except FileError Trail :=
  names.foldlM t.enter []

/-- Refuses the paths that are no row of names at all. -/
def names (path : String) : Except FileError (List String) :=
  if path.toList.contains (Char.ofNat 0) then .error .zeroInPath
  else if path.isEmpty then .error .notFound
  else if pathLimit < path.utf8ByteSize then .error .nameTooLong
  else .ok (Path.names path)

def resolve (t : FileTree) (path : String) : Except FileError Trail := do
  t.walk (← names path)

def read (t : FileTree) (path : String) : Except FileError ByteArray := do
  match t.get? (← t.resolve path) with
  | none => throw .notFound
  | some (.directory _) => throw .isDirectory
  | some (.file content) => return content

/-- A path that ends with a slash names a directory. -/
def namesDirectory (path : String) : Bool := path.toList.getLast? == some '/'

/-- A path without the slashes at its end. -/
def withoutSlashes (path : String) : String :=
  String.ofList ((path.toList.reverse.dropWhile (· == '/')).reverse)

/-- A name with a slash behind it is not looked up, as no file can be written there; but the way to it
must lead to a directory. -/
def write (t : FileTree) (path : String) (content : ByteArray) : Except FileError FileTree := do
  let way ← names path
  if namesDirectory path then
    let _ ← t.walk ((Path.names (withoutSlashes path)).dropLast ++ ["."])
    throw .isDirectory
  let trail ← t.walk way
  match t.get? trail with
  | some (.directory _) => throw .isDirectory
  | _ => return t.putAt trail (.file content)

/-- What a path leads to. -/
def find? (t : FileTree) (path : String) : Option FileTree :=
  (t.resolve path).toOption.bind t.get?

def isDirectory (t : FileTree) (path : String) : Bool :=
  match t.find? path with
  | some (.directory _) => true
  | _ => false

def createDir (t : FileTree) (path : String) : Except FileError FileTree := do
  let trail ← t.resolve (if (withoutSlashes path).isEmpty then path else withoutSlashes path)
  match t.get? trail with
  | some _ => throw .alreadyExists
  | none => return t.putAt trail empty

/-- Makes a directory, unless it is there. -/
def ensureDir (t : FileTree) (path : String) : Except FileError FileTree :=
  match t.createDir path with
  | .ok made => .ok made
  | .error e => if t.isDirectory path then .ok t else .error e

/-- Makes a change to the tree, if it is possible. -/
def change (f : FileTree → Except FileError FileTree) : StateM FileTree (Except FileError Unit) :=
  fun t ↦
    match f t with
    | .ok changed => (.ok (), changed)
    | .error e => (.error e, t)

/-- Makes a directory, and at most `levels` directories above it. Those that were made stay, also if one
below them cannot be made. -/
def createDirs : (levels : Nat) → String → StateM FileTree (Except FileError Unit)
  | 0, path => change (·.ensureDir path)
  | levels + 1, path => do
    if path.isEmpty then return .ok ()
    match ← change (·.ensureDir path) with
    | .error .notFound =>
      match Path.parent? path with
      | none => return .error .notFound
      | some above =>
        match ← createDirs levels above with
        | .error e => return .error e
        | .ok () => change (·.ensureDir path)
    | done => return done

instance : FileAccess (StateM FileTree) where
  read path := return (← get).read path
  write path content := change (·.write path content)
  pathExists path := return ((← get).find? path).isSome
  createDirs path := createDirs path.length path

end FileTree

end Dataflow
