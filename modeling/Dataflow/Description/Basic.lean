import Dataflow.Schedule.Plan

/-!
# Descriptions of graphs

A description tells a graph by names: element types with their sizes, nodes with their ports, and
edges from port to port, together with the options for its plan.
-/

namespace Dataflow

/-! ## Element types -/

/-- Sizes of element types by name, in the order of the names. -/
@[ext]
structure TypeTable where
  entries : List (String × UInt64)
  sorted : entries.Pairwise (fun a b ↦ a.1 < b.1)
  deriving DecidableEq

namespace TypeTable

def empty : TypeTable := ⟨[], .nil⟩

def get? (t : TypeTable) (name : String) : Option UInt64 := t.entries.lookup name

/-- The entries with one more; an entry of the same name is replaced. -/
def insertEntry (name : String) (size : UInt64) : List (String × UInt64) → List (String × UInt64)
  | [] => [(name, size)]
  | (key, old) :: rest =>
    if name < key then (name, size) :: (key, old) :: rest
    else if name = key then (name, size) :: rest
    else (key, old) :: insertEntry name size rest

theorem mem_insertEntry {name : String} {size : UInt64} {entries : List (String × UInt64)}
    {entry : String × UInt64} (h : entry ∈ insertEntry name size entries) :
    entry = (name, size) ∨ entry ∈ entries := by
  induction entries with
  | nil => simpa [insertEntry] using h
  | cons first rest ih =>
    simp only [insertEntry] at h
    grind

theorem lt_of_not_lt_of_ne {a b : String} (h : ¬ a < b) (hne : a ≠ b) : b < a := by
  rcases Std.lt_trichotomy a b with hlt | heq | hgt
  · exact absurd hlt h
  · exact absurd heq hne
  · exact hgt

theorem pairwise_insertEntry (name : String) (size : UInt64) {entries : List (String × UInt64)}
    (h : entries.Pairwise (fun a b ↦ a.1 < b.1)) :
    (insertEntry name size entries).Pairwise (fun a b ↦ a.1 < b.1) := by
  induction entries with
  | nil => simp [insertEntry]
  | cons first rest ih =>
    obtain ⟨key, old⟩ := first
    obtain ⟨below, above⟩ := List.pairwise_cons.mp h
    simp only [insertEntry]
    split
    · rename_i hlt
      refine List.pairwise_cons.mpr ⟨fun entry member ↦ ?_, h⟩
      rcases List.mem_cons.mp member with rfl | member
      · exact hlt
      · exact String.lt_trans hlt (below entry member)
    · rename_i hlt
      split
      · rename_i heq
        exact List.pairwise_cons.mpr ⟨fun entry member ↦ heq ▸ below entry member, above⟩
      · rename_i hne
        refine List.pairwise_cons.mpr ⟨fun entry member ↦ ?_, ih above⟩
        rcases mem_insertEntry member with rfl | member
        · exact lt_of_not_lt_of_ne hlt hne
        · exact below entry member

def insert (t : TypeTable) (name : String) (size : UInt64) : TypeTable :=
  ⟨insertEntry name size t.entries, pairwise_insertEntry name size t.sorted⟩

def ofList (entries : List (String × UInt64)) : TypeTable :=
  entries.foldl (fun t (name, size) ↦ t.insert name size) empty

end TypeTable

/-! ## Descriptions -/

structure PortDecl where
  type : String
  rate : UInt32
  deriving DecidableEq, Repr

structure NodeDecl where
  name : String
  code : Option UInt32
  inputs : List PortDecl
  outputs : List PortDecl
  deriving DecidableEq, Repr

/-- An edge between two ports, each given as the name of its node, a dot and the slot. -/
structure EdgeDecl where
  source : String
  target : String
  delay : UInt32
  deriving DecidableEq, Repr

structure Description where
  name : String
  description : Option String
  mode : Mode
  margin : UInt32
  capacityLimit : Option UInt64
  maxPeriod : UInt64
  types : TypeTable
  nodes : List NodeDecl
  edges : List EdgeDecl
  deriving DecidableEq

namespace Description

/-- Nothing but a name. -/
def new (name : String) : Description where
  name := name
  description := none
  mode := .static
  margin := 0
  capacityLimit := none
  maxPeriod := defaultMaxPeriod
  types := .empty
  nodes := []
  edges := []

def options (d : Description) : CompileOptions := ⟨d.mode, d.margin, d.capacityLimit, d.maxPeriod⟩

end Description

end Dataflow
