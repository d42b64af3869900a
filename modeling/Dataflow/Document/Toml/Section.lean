import Dataflow.Document.Tree

/-!
# Tables of a TOML document in the making

Tables grow by headers and by dotted keys. A table is closed to both ways as far as it was already
defined by the other, or by the same in full; values are closed to all. Every function gives nothing
where a document must not define what it would define.
-/

namespace Dataflow.Toml

/-- How a table came about. -/
inductive Origin where
  /-- It has a header of its own, or it is the whole document. -/
  | header
  /-- It was named on the way to the table of a header. -/
  | passing
  /-- It was named by a dotted key. -/
  | dotted
  deriving DecidableEq, Repr

inductive Item where
  | value (tree : Tree)
  | table (origin : Origin) (entries : List (String × Item))
  /-- Tables with one header, given as often as there are tables: the last one, and those before it,
  latest first. -/
  | tables (last : List (String × Item)) (earlier : List (List (String × Item)))
  deriving Inhabited

abbrev Entries := List (String × Item)

/-- Puts an item in the place of the one with the same key, or at the end. -/
def put (key : String) (item : Item) : Entries → Entries
  | [] => [(key, item)]
  | (k, old) :: rest => if k == key then (k, item) :: rest else (k, old) :: put key item rest

/-- Changes the table at the end of a path by `f`. Tables that are missing on the way are made. Of
several tables with one header the last is meant. Dotted keys do not enter a table that has a header
of its own. -/
def within (dotted : Bool) (f : Origin → Entries → Option Entries) :
    List String → Origin → Entries → Option Entries
  | [], origin, entries => f origin entries
  | key :: path, _, entries =>
    match entries.lookup key with
    | none =>
      let origin := if dotted then .dotted else .passing
      (within dotted f path origin []).map fun es ↦ put key (.table origin es) entries
    | some (.value _) => none
    | some (.table origin es) =>
      if dotted && origin == .header then none
      else (within dotted f path origin es).map fun es ↦ put key (.table origin es) entries
    | some (.tables last earlier) =>
      (within dotted f path .header last).map fun es ↦ put key (.tables es earlier) entries

/-- Adds a value under a dotted key, given as the path to its table and the name there. -/
def define (path : List String) (name : String) (value : Tree) (entries : Entries) :
    Option Entries :=
  within true
    (fun origin es ↦
      if (origin == .dotted) == path.isEmpty then none
      else if (es.lookup name).isSome then none
      else some (put name (.value value) es))
    path .header entries

/-- Opens the table of a header. -/
def openTable (path : List String) (name : String) (entries : Entries) : Option Entries :=
  within false
    (fun _ es ↦
      match es.lookup name with
      | none => some (put name (.table .header []) es)
      | some (.table .passing inner) => some (put name (.table .header inner) es)
      | _ => none)
    path .header entries

/-- Opens the next of several tables with one header. -/
def openNext (path : List String) (name : String) (entries : Entries) : Option Entries :=
  within false
    (fun _ es ↦
      match es.lookup name with
      | none => some (put name (.tables [] []) es)
      | some (.tables last earlier) => some (put name (.tables [] (last :: earlier)) es)
      | _ => none)
    path .header entries

/-! ## Trees -/

mutual

def Item.toTree : Item → Tree
  | .value tree => tree
  | .table _ entries => .table (entriesToTrees entries)
  | .tables last earlier => .list (tablesToTrees earlier [.table (entriesToTrees last)])

def entriesToTrees : Entries → List (String × Tree)
  | [] => []
  | (key, item) :: rest => (key, item.toTree) :: entriesToTrees rest

/-- The tables, which are listed latest first, in the order of the document in front of `behind`. -/
def tablesToTrees : List Entries → List Tree → List Tree
  | [], behind => behind
  | es :: rest, behind => tablesToTrees rest (.table (entriesToTrees es) :: behind)

end

end Dataflow.Toml
