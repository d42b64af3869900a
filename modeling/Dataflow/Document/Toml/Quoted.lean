import Dataflow.Document.Toml.Character

/-!
# Quoted text in TOML

There are four ways to quote a text: on one line or on several, with escapes between double quotes or
literally between single ones. Quotes on several lines are tripled, a line break just behind the
opening ones does not count, and up to two quotes may stand before the closing ones. Each reader takes
what follows the opening quotes and gives the text with the rest of the input.
-/

namespace Dataflow.Toml

/-- A text that has been read, and what follows it. -/
abbrev Quoted := Option (List Char × List Char)

namespace Quoted

/-- Puts a character in front of the text. -/
def cons (c : Char) (q : Quoted) : Quoted := q.map fun (text, rest) ↦ (c :: text, rest)

end Quoted

/-! ## Escapes -/

/-- The character that `\` and one letter stand for. -/
def escaped? : Char → Option Char
  | 'b' => some (Char.ofNat 8)
  | 't' => some '\t'
  | 'n' => some '\n'
  | 'f' => some (Char.ofNat 12)
  | 'r' => some '\r'
  | '"' => some '"'
  | '\\' => some '\\'
  | _ => none

def hexValue? (c : Char) : Option Nat :=
  let n := c.toNat
  if 48 ≤ n ∧ n ≤ 57 then some (n - 48)
  else if 65 ≤ n ∧ n ≤ 70 then some (n - 55)
  else if 97 ≤ n ∧ n ≤ 102 then some (n - 87)
  else none

def hexNumber? (digits : List Char) : Option Nat :=
  digits.foldlM (fun acc c ↦ (hexValue? c).map (acc * 16 + ·)) 0

/-- The character with the number that the digits give, if there is one. -/
def scalarOf? (digits : List Char) : Option Char := do
  let n ← hexNumber? digits
  if n < 0xD800 ∨ (0xE000 ≤ n ∧ n < 0x110000) then some (Char.ofNat n) else none

/-- Puts the character with the given digits in front of the text. -/
def Quoted.consScalar (digits : List Char) (q : Quoted) : Quoted :=
  match scalarOf? digits with
  | none => none
  | some c => q.cons c

/-! ## One line -/

def basic : List Char → Quoted
  | '"' :: rest => some ([], rest)
  | '\\' :: 'u' :: a :: b :: c :: d :: rest => (basic rest).consScalar [a, b, c, d]
  | '\\' :: 'U' :: a :: b :: c :: d :: e :: f :: g :: h :: rest =>
    (basic rest).consScalar [a, b, c, d, e, f, g, h]
  | '\\' :: c :: rest =>
    match escaped? c with
    | none => none
    | some e => (basic rest).cons e
  | c :: rest => if isPlain c then (basic rest).cons c else none
  | [] => none

def literal : List Char → Quoted
  | '\'' :: rest => some ([], rest)
  | c :: rest => if isPlain c then (literal rest).cons c else none
  | [] => none

/-! ## Several lines -/

/-- Up to two more quotes behind the closing ones belong to the text. -/
def closing (quote : Char) : List Char → Quoted
  | a :: b :: rest =>
    if a == quote && b == quote then some ([quote, quote], rest)
    else if a == quote then some ([quote], b :: rest)
    else some ([], a :: b :: rest)
  | [a] => if a == quote then some ([quote], []) else some ([], [a])
  | [] => some ([], [])

/-- Where the reader of a text on several lines stands. -/
inductive Margin where
  /-- In the text. -/
  | inside
  /-- Behind a `\`, in front of the line break that it takes out. -/
  | lineEnd
  /-- Behind such a line break; blanks and further line breaks are taken out too. -/
  | indent
  deriving DecidableEq, Repr

def basicLines : Margin → List Char → Quoted
  | .lineEnd, '\r' :: '\n' :: rest => basicLines .indent rest
  | .lineEnd, '\n' :: rest => basicLines .indent rest
  | .lineEnd, ' ' :: rest => basicLines .lineEnd rest
  | .lineEnd, '\t' :: rest => basicLines .lineEnd rest
  | .lineEnd, _ => none
  | .indent, '\r' :: '\n' :: rest => basicLines .indent rest
  | .indent, '\n' :: rest => basicLines .indent rest
  | .indent, ' ' :: rest => basicLines .indent rest
  | .indent, '\t' :: rest => basicLines .indent rest
  | _, '"' :: '"' :: '"' :: rest => closing '"' rest
  | _, '\r' :: '\n' :: rest => (basicLines .inside rest).cons '\n'
  | _, '\n' :: rest => (basicLines .inside rest).cons '\n'
  | _, '\\' :: 'u' :: a :: b :: c :: d :: rest => (basicLines .inside rest).consScalar [a, b, c, d]
  | _, '\\' :: 'U' :: a :: b :: c :: d :: e :: f :: g :: h :: rest =>
    (basicLines .inside rest).consScalar [a, b, c, d, e, f, g, h]
  | _, '\\' :: ' ' :: rest => basicLines .lineEnd rest
  | _, '\\' :: '\t' :: rest => basicLines .lineEnd rest
  | _, '\\' :: '\n' :: rest => basicLines .indent rest
  | _, '\\' :: '\r' :: '\n' :: rest => basicLines .indent rest
  | _, '\\' :: c :: rest =>
    match escaped? c with
    | none => none
    | some e => (basicLines .inside rest).cons e
  | _, c :: rest => if isPlain c then (basicLines .inside rest).cons c else none
  | _, [] => none

def literalLines : List Char → Quoted
  | '\'' :: '\'' :: '\'' :: rest => closing '\'' rest
  | '\r' :: '\n' :: rest => (literalLines rest).cons '\n'
  | '\n' :: rest => (literalLines rest).cons '\n'
  | c :: rest => if isPlain c then (literalLines rest).cons c else none
  | [] => none

/-- Drops the line break just behind the opening quotes. -/
def opened : List Char → List Char
  | '\r' :: '\n' :: rest => rest
  | '\n' :: rest => rest
  | rest => rest

/-! ## Any form -/

/-- A key is quoted on one line. -/
def quotedKey : List Char → Quoted
  | '"' :: rest => basic rest
  | '\'' :: rest => literal rest
  | _ => none

def quoted : List Char → Quoted
  | '"' :: '"' :: '"' :: rest => basicLines .inside (opened rest)
  | '"' :: rest => basic rest
  | '\'' :: '\'' :: '\'' :: rest => literalLines (opened rest)
  | '\'' :: rest => literal rest
  | _ => none

end Dataflow.Toml
