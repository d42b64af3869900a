import Dataflow.Document.Toml.Character
import Dataflow.Document.Tree

/-!
# Numbers, truth values and dates in TOML

A bare scalar is a row of letters, digits and the marks `+ - _ . :`. Integers must fit 64 bits with
sign. Fractions, truth values and dates are checked but kept as they are written.
-/

namespace Dataflow.Toml

/-! ## Integers -/

/-- The digits without the underscores, each of which must stand between two digits. -/
def grouped (digit : Char → Bool) : List Char → Option (List Char)
  | [] => none
  | [c] => if digit c then some [c] else none
  | c :: '_' :: rest => if digit c then (grouped digit rest).map (c :: ·) else none
  | c :: rest => if digit c then (grouped digit rest).map (c :: ·) else none

def digitValue (c : Char) : Nat :=
  if isDigit c then c.toNat - 48
  else if c.toNat ≤ 90 then c.toNat - 55
  else c.toNat - 87

def valueIn (base : Nat) (digits : List Char) : Nat :=
  digits.foldl (fun acc c ↦ acc * base + digitValue c) 0

/-- The digits of a number in base ten without a leading zero. -/
def wholeDigits (cs : List Char) : Option (List Char) := do
  let digits ← grouped isDigit cs
  if digits.head? == some '0' && digits.length != 1 then none else some digits

def fitInteger (n : Int) : Option Int :=
  if -9223372036854775808 ≤ n ∧ n ≤ 9223372036854775807 then some n else none

def isHexDigit (c : Char) : Bool :=
  isDigit c || (65 ≤ c.toNat && c.toNat ≤ 70) || (97 ≤ c.toNat && c.toNat ≤ 102)

def isOctalDigit (c : Char) : Bool := 48 ≤ c.toNat && c.toNat ≤ 55

def isBinaryDigit (c : Char) : Bool := c == '0' || c == '1'

def integer? : List Char → Option Int
  | '0' :: 'x' :: rest => (grouped isHexDigit rest).bind fun d ↦ fitInteger (valueIn 16 d)
  | '0' :: 'o' :: rest => (grouped isOctalDigit rest).bind fun d ↦ fitInteger (valueIn 8 d)
  | '0' :: 'b' :: rest => (grouped isBinaryDigit rest).bind fun d ↦ fitInteger (valueIn 2 d)
  | '+' :: rest => (wholeDigits rest).bind fun d ↦ fitInteger (valueIn 10 d)
  | '-' :: rest => (wholeDigits rest).bind fun d ↦ fitInteger (-(valueIn 10 d : Int))
  | rest => (wholeDigits rest).bind fun d ↦ fitInteger (valueIn 10 d)

/-! ## Fractions -/

/-- The parts of a number with a fraction or an exponent. -/
structure Fraction where
  negative : Bool
  whole : List Char
  part : List Char
  exponent : Int
  deriving DecidableEq, Repr

/-- The least decimal number that no finite number of 64 bits is nearest to. -/
def overflowBound : Nat := Nat.pow 2 1024 - Nat.pow 2 970

/-- The number is at least `overflowBound`. The place of its first digit decides that but for numbers
of about the same size as the bound. -/
def Fraction.isHuge (f : Fraction) : Bool :=
  let digits := (f.whole ++ f.part).dropWhile (· == '0')
  let leading := (f.whole ++ f.part).length - digits.length
  let place : Int := f.whole.length - leading + f.exponent
  if digits.isEmpty then false
  else if 320 < place then true
  else if place < 300 then false
  else
    let scale : Int := f.exponent - f.part.length
    if 0 ≤ scale then overflowBound ≤ valueIn 10 digits * Nat.pow 10 scale.toNat
    else overflowBound * Nat.pow 10 (-scale).toNat ≤ valueIn 10 digits

def exponent? : List Char → Option Int
  | '+' :: rest => (grouped isDigit rest).map fun d ↦ (valueIn 10 d : Int)
  | '-' :: rest => (grouped isDigit rest).map fun d ↦ -(valueIn 10 d : Int)
  | rest => (grouped isDigit rest).map fun d ↦ (valueIn 10 d : Int)

def isExponentMark (c : Char) : Bool := c == 'e' || c == 'E'

/-- A number without sign that has a fraction, an exponent or both. -/
def unsignedFraction? (negative : Bool) (cs : List Char) : Option Fraction := do
  let whole ← wholeDigits (cs.takeWhile fun c ↦ c != '.' && !isExponentMark c)
  match cs.dropWhile fun c ↦ c != '.' && !isExponentMark c with
  | '.' :: rest =>
    let part ← grouped isDigit (rest.takeWhile fun c ↦ !isExponentMark c)
    match rest.dropWhile fun c ↦ !isExponentMark c with
    | [] => some ⟨negative, whole, part, 0⟩
    | _ :: rest => (exponent? rest).map fun e ↦ ⟨negative, whole, part, e⟩
  | _ :: rest => (exponent? rest).map fun e ↦ ⟨negative, whole, [], e⟩
  | [] => none

def fraction? : List Char → Option Fraction
  | '+' :: rest => unsignedFraction? false rest
  | '-' :: rest => unsignedFraction? true rest
  | rest => unsignedFraction? false rest

/-- A fraction that is not too big to have a finite value. There is no such bound below zero. -/
def isFraction (cs : List Char) : Bool :=
  match fraction? cs with
  | none => false
  | some f => f.negative || !f.isHuge

def isSpecial (cs : List Char) : Bool :=
  let unsigned := match cs with
    | '+' :: rest => rest
    | '-' :: rest => rest
    | rest => rest
  unsigned == "inf".toList || unsigned == "nan".toList

/-! ## Dates and times -/

/-- Two digits that give a number from `low` to `high`, and the rest. -/
def pair (low high : Nat) : List Char → Option (Nat × List Char)
  | a :: b :: rest =>
    if isDigit a && isDigit b then
      let n := valueIn 10 [a, b]
      if low ≤ n ∧ n ≤ high then some (n, rest) else none
    else none
  | _ => none

def expect (c : Char) : List Char → Option (List Char)
  | d :: rest => if d == c then some rest else none
  | [] => none

def isLeap (year : Nat) : Bool := year % 4 == 0 && (year % 100 != 0 || year % 400 == 0)

def daysIn (year month : Nat) : Nat :=
  if month == 2 then (if isLeap year then 29 else 28)
  else if month == 4 || month == 6 || month == 9 || month == 11 then 30
  else 31

/-- What follows a date. -/
def afterDate (cs : List Char) : Option (List Char) := do
  let (century, cs) ← pair 0 99 cs
  let (year, cs) ← pair 0 99 cs
  let (month, cs) ← pair 1 12 (← expect '-' cs)
  let (day, cs) ← pair 1 31 (← expect '-' cs)
  if day ≤ daysIn (century * 100 + year) month then some cs else none

/-- What follows a time of day. The second 60 is there for leap seconds. -/
def afterTime (cs : List Char) : Option (List Char) := do
  let (_, cs) ← pair 0 23 cs
  let (_, cs) ← pair 0 59 (← expect ':' cs)
  let (_, cs) ← pair 0 60 (← expect ':' cs)
  match cs with
  | '.' :: rest =>
    if (rest.takeWhile isDigit).isEmpty then none else some (rest.dropWhile isDigit)
  | _ => some cs

/-- The distance from universal time, or nothing at all. -/
def isOffset : List Char → Bool
  | [] => true
  | [c] => c == 'Z' || c == 'z'
  | c :: rest =>
    (c == '+' || c == '-')
      && (do
        let (_, rest) ← pair 0 23 rest
        let (_, rest) ← pair 0 59 (← expect ':' rest)
        return rest) == some []

def isTime (cs : List Char) : Bool := afterTime cs == some []

def isDate (cs : List Char) : Bool := afterDate cs == some []

/-- A time of day, alone or with its distance from universal time behind it. -/
def isTimeOffset (cs : List Char) : Bool := ((afterTime cs).map isOffset).getD false

/-- A date with a time, joined by a letter. -/
def isMoment (cs : List Char) : Bool :=
  match afterDate cs with
  | some (c :: rest) => (c == 'T' || c == 't') && isTimeOffset rest
  | _ => false

/-! ## Any bare scalar -/

def isScalarChar (c : Char) : Bool :=
  isDigit c || isLetter c || c == '+' || c == '-' || c == '_' || c == '.' || c == ':'

def isLiteral (cs : List Char) : Bool :=
  cs == "true".toList || cs == "false".toList || isSpecial cs || isFraction cs || isDate cs
    || isTime cs || isMoment cs

/-- The scalar that a row of scalar characters stands for. -/
def word? (cs : List Char) : Option Tree :=
  if isLiteral cs then some (.literal (String.ofList cs))
  else (integer? cs).map .integer

/-- A bare scalar, and what follows it. A date and a time may also be joined by a blank. -/
def bare (cs : List Char) : Option (Tree × List Char) :=
  let word := cs.takeWhile isScalarChar
  let rest := cs.dropWhile isScalarChar
  match rest with
  | ' ' :: more =>
    let second := more.takeWhile isScalarChar
    if isDate word && isTimeOffset second then
      some (.literal (String.ofList (word ++ ' ' :: second)), more.dropWhile isScalarChar)
    else (word? word).map (·, rest)
  | _ => (word? word).map (·, rest)

end Dataflow.Toml
