import Dataflow.Document.Tree
import Dataflow.Text.Decimal

/-!
# Writing JSON

Trees as JSON with every value on a line of its own and two blanks for each level.
-/

namespace Dataflow.Json

def hexDigit (n : Nat) : Char := if n < 10 then Char.ofNat (48 + n) else Char.ofNat (87 + n)

def escape (c : Char) : List Char :=
  if c == '"' then ['\\', '"']
  else if c == '\\' then ['\\', '\\']
  else if c == '\n' then ['\\', 'n']
  else if c == '\r' then ['\\', 'r']
  else if c == '\t' then ['\\', 't']
  else if c.toNat == 8 then ['\\', 'b']
  else if c.toNat == 12 then ['\\', 'f']
  else if c.toNat < 32 then
    ['\\', 'u', '0', '0', hexDigit (c.toNat / 16), hexDigit (c.toNat % 16)]
  else [c]

def quote (s : String) : String := String.ofList ('"' :: s.toList.flatMap escape ++ ['"'])

def indent (level : Nat) : String := String.ofList (List.replicate (2 * level) ' ')

mutual

/-- A value that begins on a line at `level`. -/
def pretty (level : Nat) : Tree → String
  | .string s => quote s
  | .integer n => Decimal.intText n
  | .literal text => text
  | .list [] => "[]"
  | .list (t :: rest) =>
    "[\n" ++ ",\n".intercalate (itemLines (level + 1) (t :: rest)) ++ "\n" ++ indent level ++ "]"
  | .table [] => "\x7b\x7d"
  | .table ((key, t) :: rest) =>
    "\x7b\n" ++ ",\n".intercalate (entryLines (level + 1) ((key, t) :: rest)) ++ "\n"
      ++ indent level ++ "\x7d"

def itemLines (level : Nat) : List Tree → List String
  | [] => []
  | t :: rest => (indent level ++ pretty level t) :: itemLines level rest

def entryLines (level : Nat) : List (String × Tree) → List String
  | [] => []
  | (key, t) :: rest => (indent level ++ quote key ++ ": " ++ pretty level t) :: entryLines level rest

end

def write (t : Tree) : String := pretty 0 t

end Dataflow.Json
