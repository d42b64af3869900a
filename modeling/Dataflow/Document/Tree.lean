/-!
# Trees of values

The content of a structured document, apart from how it is written: strings, integers, other scalars,
lists, and tables of named entries. How trees are written as text, and read again, is left to a format.
-/

namespace Dataflow

inductive Tree where
  | string (text : String)
  | integer (value : Int)
  /-- Any other scalar, such as a truth value, a fraction or a date, as it is written. -/
  | literal (text : String)
  | list (items : List Tree)
  | table (entries : List (String × Tree))
  deriving Inhabited, Repr

namespace Tree

def isTable : Tree → Bool
  | table _ => true
  | _ => false

def natural (n : Nat) : Tree := integer n

def strings (texts : List String) : Tree := list (texts.map string)

/-! ## Reading values -/

def text? : Tree → Option String
  | string s => some s
  | _ => none

/-- A number from 0 up to but not including `bound`. -/
def natural? (bound : Nat) : Tree → Option Nat
  | integer n => if 0 ≤ n ∧ n < bound then some n.toNat else none
  | _ => none

def u32? (t : Tree) : Option UInt32 := (t.natural? 4294967296).map UInt32.ofNat

def u64? (t : Tree) : Option UInt64 := (t.natural? 18446744073709551616).map UInt64.ofNat

def listOf? {α : Type} (read : Tree → Option α) : Tree → Option (List α)
  | list items => items.mapM read
  | _ => none

/-- The fields of a record, which is written as a table, or as a list of its fields in the order of
`names`. -/
def record? (names : List String) : Tree → Option (String → Option Tree)
  | table entries => some fun name ↦ entries.lookup name
  | list items => some fun name ↦ (names.findIdx? (· == name)).bind (items[·]?)
  | _ => none

/-- A field that may be missing. -/
def optional? {α : Type} (read : Tree → Option α) (missing : α) : Option Tree → Option α
  | none => some missing
  | some t => read t

end Tree

/-- How trees are written as text and read. Not all trees need to have a text, nor all texts a tree. -/
structure DocumentFormat where
  write? : Tree → Option String
  read? : String → Option Tree

end Dataflow
