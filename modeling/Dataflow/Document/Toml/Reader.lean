import Dataflow.Document.Toml.Quoted
import Dataflow.Document.Toml.Scalar
import Dataflow.Document.Toml.Section

/-!
# Reading TOML

A document is a row of lines: headers of tables, and keys with values. `Toml.read?` gives the tree of
the document, or nothing if the text is not one. Values may be nested, and keys dotted, up to a fixed
depth.
-/

namespace Dataflow.Toml

/-- Containers in containers, and parts of a dotted key, number less than this. -/
def depthLimit : Nat := 80

def skipBlanks (cs : List Char) : List Char := cs.dropWhile isBlank

/-! ## Comments and ends of lines -/

/-- Skips blanks, line breaks and comments, which are ended by line breaks. -/
def skipLines : (comment : Bool) → List Char → Option (List Char)
  | _, '\n' :: rest => skipLines false rest
  | _, '\r' :: '\n' :: rest => skipLines false rest
  | true, c :: rest => if isPlain c then skipLines true rest else none
  | true, [] => none
  | false, ' ' :: rest => skipLines false rest
  | false, '\t' :: rest => skipLines false rest
  | false, '#' :: rest => skipLines true rest
  | false, cs => some cs

/-- What follows the end of a line, which may be that of the document. -/
def lineBreak : List Char → Option (List Char)
  | [] => some []
  | '\n' :: rest => some rest
  | '\r' :: '\n' :: rest => some rest
  | _ => none

/-- Skips what may stand at the end of a line: blanks and a comment. -/
def endLine (cs : List Char) : Option (List Char) :=
  match skipBlanks cs with
  | '#' :: rest => lineBreak (rest.dropWhile isPlain)
  | rest => lineBreak rest

/-! ## Keys -/

/-- One part of a key. -/
def simpleKey (cs : List Char) : Option (String × List Char) :=
  match quotedKey cs with
  | some (text, rest) => some (String.ofList text, rest)
  | none =>
    let word := cs.takeWhile isBareKeyChar
    if word.isEmpty then none else some (String.ofList word, cs.dropWhile isBareKeyChar)

/-- At most `parts` parts of a key with dots between them and blanks around them. -/
def keyParts : (parts : Nat) → List Char → Option (List String × List Char)
  | 0, _ => none
  | parts + 1, cs => do
    let (part, rest) ← simpleKey (skipBlanks cs)
    match skipBlanks rest with
    | '.' :: rest =>
      let (more, rest) ← keyParts parts rest
      return (part :: more, rest)
    | rest => return ([part], rest)

/-- A key: the path to a table, and the name there. -/
structure Key where
  path : List String
  name : String
  deriving DecidableEq, Repr

def key (cs : List Char) : Option (Key × List Char) := do
  let (parts, rest) ← keyParts (depthLimit - 1) cs
  return (⟨parts.dropLast, parts.getLastD ""⟩, rest)

/-! ## Values -/

abbrev ValueReader := List Char → Option (Tree × List Char)

/-- The elements of a list up to its closing bracket. `bound` is at least the number of elements. -/
def listItems (element : ValueReader) :
    (bound : Nat) → List Char → Option (List Tree × List Char)
  | 0, _ => none
  | bound + 1, cs =>
    match skipLines false cs with
    | none => none
    | some (']' :: rest) => some ([], rest)
    | some cs => do
      let (first, rest) ← element cs
      match ← skipLines false rest with
      | ']' :: rest => return ([first], rest)
      | ',' :: rest =>
        let (items, rest) ← listItems element bound rest
        return (first :: items, rest)
      | _ => none

/-- A key with its value, up to the blanks behind the value. -/
def pairWith (element : ValueReader) (cs : List Char) : Option ((Key × Tree) × List Char) := do
  let (k, rest) ← key cs
  let (value, rest) ← element (skipBlanks (← expect '=' rest))
  return ((k, value), skipBlanks rest)

/-- The entries of a table on one line up to its closing brace. `bound` is at least their number. -/
def inlineEntries (element : ValueReader) :
    (bound : Nat) → Entries → List Char → Option (Entries × List Char)
  | 0, _, _ => none
  | bound + 1, entries, cs => do
    let ((k, value), rest) ← pairWith element cs
    let entries ← define k.path k.name value entries
    match rest with
    | '\x7d' :: rest => return (entries, rest)
    | ',' :: rest => inlineEntries element bound entries rest
    | _ => none

def inlineTable (element : ValueReader) (cs : List Char) : Option (Tree × List Char) :=
  match skipBlanks cs with
  | '\x7d' :: rest => some (.table [], rest)
  | cs => (inlineEntries element cs.length [] cs).map fun (es, rest) ↦ (.table (entriesToTrees es), rest)

def scalar (cs : List Char) : Option (Tree × List Char) :=
  match cs with
  | '"' :: _ | '\'' :: _ =>
    (quoted cs).map fun (text, rest) ↦ (.string (String.ofList text), rest)
  | _ => bare cs

/-- A value with at most `depth` containers in each other. -/
def value : (depth : Nat) → ValueReader
  | 0, cs => scalar cs
  | depth + 1, cs =>
    match cs with
    | '[' :: rest =>
      (listItems (value depth) cs.length rest).map fun (items, rest) ↦ (.list items, rest)
    | '\x7b' :: rest => inlineTable (value depth) rest
    | _ => scalar cs

/-! ## Lines -/

inductive Line where
  | header (key : Key)
  /-- A header with double brackets. -/
  | next (key : Key)
  | pair (key : Key) (value : Tree)

def headerLine : List Char → Option (Line × List Char)
  | '[' :: rest => do
    let (k, rest) ← key rest
    return (.next k, ← expect ']' (← expect ']' rest))
  | rest => do
    let (k, rest) ← key rest
    return (.header k, ← expect ']' rest)

def pairLine (cs : List Char) : Option (Line × List Char) := do
  let ((k, v), rest) ← pairWith (value (depthLimit - 1)) cs
  return (.pair k v, rest)

/-- The lines of a document but for those without content. `bound` is more than the number of
lines. -/
def lines : (bound : Nat) → List Char → Option (List Line)
  | 0, _ => none
  | bound + 1, cs =>
    match skipBlanks cs with
    | [] => some []
    | '#' :: rest => (endLine ('#' :: rest)).bind (lines bound)
    | '\n' :: rest => lines bound rest
    | '\r' :: '\n' :: rest => lines bound rest
    | '[' :: rest => do
      let (line, rest) ← headerLine rest
      return line :: (← lines bound (← endLine rest))
    | cs => do
      let (line, rest) ← pairLine cs
      return line :: (← lines bound (← endLine rest))

/-! ## Documents -/

/-- The document up to some line, and the path of the table that keys are added to. -/
structure Draft where
  entries : Entries
  current : List String

def Draft.add (d : Draft) : Line → Option Draft
  | .header k => (openTable k.path k.name d.entries).map (⟨·, k.path ++ [k.name]⟩)
  | .next k => (openNext k.path k.name d.entries).map (⟨·, k.path ++ [k.name]⟩)
  | .pair k v =>
    (within false (fun _ es ↦ define k.path k.name v es) d.current .header d.entries).map
      (⟨·, d.current⟩)

/-- A mark of byte order may stand before the text. -/
def dropMark : List Char → List Char
  | '\uFEFF' :: rest => rest
  | cs => cs

/-- The tree of a document, which is a table. -/
def read? (text : String) : Option Tree := do
  let cs := dropMark text.toList
  let ls ← lines (cs.length + 1) cs
  let d ← ls.foldlM Draft.add ⟨[], []⟩
  return .table (entriesToTrees d.entries)

end Dataflow.Toml
