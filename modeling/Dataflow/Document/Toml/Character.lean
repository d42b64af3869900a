/-!
# Characters in TOML

Classes of characters. Letters and digits are those of ASCII, in which keys, numbers and dates are
written.
-/

namespace Dataflow.Toml

/-- A control character of ASCII. -/
def isControl (c : Char) : Bool := c.toNat < 32 || c.toNat == 127

/-- No control character but the tab. -/
def isPlain (c : Char) : Bool := c == '\t' || !isControl c

def isBlank (c : Char) : Bool := c == ' ' || c == '\t'

def isDigit (c : Char) : Bool := 48 ≤ c.toNat && c.toNat ≤ 57

def isLetter (c : Char) : Bool :=
  (65 ≤ c.toNat && c.toNat ≤ 90) || (97 ≤ c.toNat && c.toNat ≤ 122)

/-- The characters of a key that needs no quotes. -/
def isBareKeyChar (c : Char) : Bool := isDigit c || isLetter c || c == '_' || c == '-'

end Dataflow.Toml
