/-!
# Machine words

Counts and sizes are natural numbers; a machine keeps them in words of 64 bits. `checked` is for
products that must not leave that range, `wrap` for sums and products that are cut to it.
-/

namespace Dataflow.Word

/-- One more than the largest word. -/
def modulus : Nat := 18446744073709551616

def checked (n : Nat) : Option Nat := if n < modulus then some n else none

def wrap (n : Nat) : Nat := n % modulus

theorem checked_eq_some_iff {n m : Nat} : checked n = some m ↔ n < modulus ∧ n = m := by
  unfold checked
  split
  · simp_all
  · constructor
    · simp
    · omega

theorem wrap_of_lt {n : Nat} (h : n < modulus) : wrap n = n := Nat.mod_eq_of_lt h

theorem wrap_lt (n : Nat) : wrap n < modulus := Nat.mod_lt n (by decide)

end Dataflow.Word
