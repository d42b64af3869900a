import Dataflow.Document.Toml.Reader
import Dataflow.Text.Decimal

/-!
# Writing TOML

The entries of a table come first, then the tables in it, each under a header behind an empty line;
lists of tables are written as tables with one header. Lists of at least two elements take a line for
each. A text is quoted in the plainest way that holds it. Integers need 64 bits with sign; a tree with
others cannot be written.
-/

namespace Dataflow.Toml

/-! ## Text -/

/-- What decides on the way in which a text is quoted. -/
structure TextTraits where
  /-- Control characters other than tab and line break. -/
  controls : Bool
  backslash : Bool
  newline : Bool
  double : Bool
  single : Bool
  /-- Three double quotes in a row. -/
  doubleRun : Bool
  singleRun : Bool
  deriving DecidableEq, Repr

def hasRun (c : Char) : List Char → Bool
  | a :: b :: d :: rest => (a == c && b == c && d == c) || hasRun c (b :: d :: rest)
  | _ => false

def TextTraits.of (cs : List Char) : TextTraits where
  controls := cs.any fun c ↦ isControl c && c != '\t' && c != '\n'
  backslash := cs.contains '\\'
  newline := cs.contains '\n'
  double := cs.contains '"'
  single := cs.contains '\''
  doubleRun := hasRun '"' cs
  singleRun := hasRun '\'' cs

def hexDigit (n : Nat) : Char := if n < 10 then Char.ofNat (48 + n) else Char.ofNat (55 + n)

/-- A character between double quotes; line breaks and quotes are left to the caller. -/
def escape (c : Char) : List Char :=
  if c == '\\' then ['\\', '\\']
  else if c == '\t' then ['\\', 't']
  else if c.toNat == 8 then ['\\', 'b']
  else if c.toNat == 12 then ['\\', 'f']
  else if c == '\r' then ['\\', 'r']
  else if isControl c then ['\\', 'u', '0', '0', hexDigit (c.toNat / 16), hexDigit (c.toNat % 16)]
  else [c]

def basicBody (cs : List Char) : List Char :=
  cs.flatMap fun c ↦
    if c == '\n' then ['\\', 'n'] else if c == '"' then ['\\', '"'] else escape c

/-- The body of a text on several lines. The third of three quotes in a row is escaped; `run` is the
number of quotes just before. -/
def basicLinesBody : (run : Nat) → List Char → List Char
  | _, [] => []
  | run, c :: rest =>
    if c == '"' then
      if run == 2 then '\\' :: '"' :: basicLinesBody 0 rest
      else '"' :: basicLinesBody (run + 1) rest
    else if c == '\n' then '\n' :: basicLinesBody 0 rest
    else escape c ++ basicLinesBody 0 rest

inductive Quotes where
  | basic
  | literal
  | basicLines
  | literalLines
  deriving DecidableEq, Repr

/-- The first of the ways to quote a text that holds it without escapes. -/
def Quotes.choose (t : TextTraits) : Quotes :=
  if !t.controls && !t.backslash && !t.double && !t.newline then basic
  else if !t.controls && !t.single && !t.newline then literal
  else if !t.controls && !t.backslash && !t.doubleRun then basicLines
  else if !t.controls && !t.singleRun then literalLines
  else if t.newline then basicLines
  else basic

def quote (s : String) : String :=
  let cs := s.toList
  let traits := TextTraits.of cs
  let start := if traits.newline then ['\n'] else []
  String.ofList <|
    match Quotes.choose traits with
    | .basic => '"' :: basicBody cs ++ ['"']
    | .literal => '\'' :: cs ++ ['\'']
    | .basicLines => "\"\"\"".toList ++ start ++ basicLinesBody 0 cs ++ "\"\"\"".toList
    | .literalLines => "'''".toList ++ start ++ cs ++ "'''".toList

/-- Keys stay on one line and are not quoted without need. Where single quotes spare the escape of a
backslash or a double quote, they are taken. -/
def quoteKey (s : String) : String :=
  let cs := s.toList
  if !cs.isEmpty && cs.all isBareKeyChar then s
  else if (cs.contains '\\' || cs.contains '"') && cs.all isPlain && !cs.contains '\'' then
    String.ofList ('\'' :: cs ++ ['\''])
  else String.ofList ('"' :: basicBody cs ++ ['"'])

/-! ## Values -/

mutual

/-- A value behind its key. -/
def inline : Tree → String
  | .string s => quote s
  | .integer n => Decimal.intText n
  | .literal text => text
  | .list [] => "[]"
  | .list [t] => "[" ++ inline t ++ "]"
  | .list (t :: rest) => "[\n" ++ String.join (itemLines (t :: rest)) ++ "]"
  | .table [] => "\x7b\x7d"
  | .table ((key, t) :: rest) =>
    "\x7b " ++ ", ".intercalate (inlinePairs ((key, t) :: rest)) ++ " \x7d"

def itemLines : List Tree → List String
  | [] => []
  | t :: rest => ("    " ++ inline t ++ ",\n") :: itemLines rest

def inlinePairs : List (String × Tree) → List String
  | [] => []
  | (key, t) :: rest => (quoteKey key ++ " = " ++ inline t) :: inlinePairs rest

end

/-! ## Tables -/

/-- Written under headers of its own. -/
def isSection : Tree → Bool
  | .table _ => true
  | .list [] => false
  | .list items => items.all Tree.isTable
  | _ => false

/-- The entries that have no headers of their own, one after another. -/
def plainLines (entries : List (String × Tree)) : String :=
  String.join <| (entries.filter fun (_, t) ↦ !isSection t).map fun (key, t) ↦
    quoteKey key ++ " = " ++ inline t ++ "\n"

/-- A table whose entries are all tables has no header. -/
def needsHeader (entries : List (String × Tree)) : Bool :=
  entries.isEmpty || entries.any fun (_, t) ↦ !isSection t

def join (path key : String) : String :=
  if path.isEmpty then quoteKey key else path ++ "." ++ quoteKey key

mutual

/-- The blocks of the tables among the entries of the table at `path`. -/
def blocks (path : String) : List (String × Tree) → List String
  | [] => []
  | (key, t) :: rest => sectionBlocks (join path key) t ++ blocks path rest

/-- The blocks of the table or the tables at `path`. -/
def sectionBlocks (path : String) : Tree → List String
  | .table entries =>
    (if needsHeader entries then ["[" ++ path ++ "]\n" ++ plainLines entries] else [])
      ++ blocks path entries
  | .list items => if items.all Tree.isTable then elementBlocks path items else []
  | _ => []

def elementBlocks (path : String) : List Tree → List String
  | [] => []
  | .table entries :: rest =>
    ("[[" ++ path ++ "]]\n" ++ plainLines entries) :: (blocks path entries ++ elementBlocks path rest)
  | _ :: rest => elementBlocks path rest

end

/-! ## Documents -/

mutual

/-- All integers can be written. -/
def fits : Tree → Bool
  | .integer n => -9223372036854775808 ≤ n && n ≤ 9223372036854775807
  | .list items => itemsFit items
  | .table entries => entriesFit entries
  | _ => true

def itemsFit : List Tree → Bool
  | [] => true
  | t :: rest => fits t && itemsFit rest

def entriesFit : List (String × Tree) → Bool
  | [] => true
  | (_, t) :: rest => fits t && entriesFit rest

end

/-- A document with the given entries. Its blocks stand apart by empty lines. -/
def write? (entries : List (String × Tree)) : Option String :=
  if entriesFit entries then
    let top := plainLines entries
    some ("\n".intercalate ((if top.isEmpty then [] else [top]) ++ blocks "" entries))
  else none

/-- A document is a table. -/
def format : DocumentFormat where
  write?
    | .table entries => write? entries
    | _ => none
  read? := read?

end Dataflow.Toml
