/-!
# Decimal numerals

The written form of a natural number: base ten, most significant digit first, no leading zero.
Reading accepts any non-empty row of ASCII digits, leading zeros included, and gives a written
number back (`value?_digits`).
-/

namespace Dataflow.Decimal

/-- The digit for the units of `n`. -/
def unit (n : Nat) : Char := Char.ofNat (48 + n % 10)

def digits (n : Nat) : List Char :=
  if n < 10 then [unit n] else digits (n / 10) ++ [unit n]
termination_by n

def text (n : Nat) : String := String.ofList (digits n)

/-- A minus sign stands before a negative number and nothing before the others. -/
def intText : Int → String
  | .ofNat n => text n
  | .negSucc n => "-" ++ text (n + 1)

/-- The value so far with one more digit behind it. -/
def extend (value : Nat) (c : Char) : Option Nat :=
  if 48 ≤ c.toNat ∧ c.toNat ≤ 57 then some (value * 10 + (c.toNat - 48)) else none

def value? (cs : List Char) : Option Nat :=
  if cs.isEmpty then none else cs.foldlM extend 0

theorem toNat_unit (n : Nat) : (unit n).toNat = 48 + n % 10 := by
  have h : ∀ d < 10, (Char.ofNat (48 + d)).toNat = 48 + d := by decide
  exact h (n % 10) (Nat.mod_lt _ (by decide))

theorem extend_unit (value n : Nat) : extend value (unit n) = some (value * 10 + n % 10) := by
  have h : n % 10 < 10 := Nat.mod_lt _ (by decide)
  simp only [extend, toNat_unit]
  rw [if_pos ⟨by omega, by omega⟩]
  congr 2
  omega

theorem mem_digits {n : Nat} {c : Char} (h : c ∈ digits n) : 48 ≤ c.toNat ∧ c.toNat ≤ 57 := by
  induction n using Nat.strongRecOn with
  | ind n ih =>
    have hunit : 48 ≤ (unit n).toNat ∧ (unit n).toNat ≤ 57 := by
      rw [toNat_unit]
      omega
    rw [digits] at h
    split at h
    · rw [List.mem_singleton.mp h]
      exact hunit
    · rename_i hn
      rcases List.mem_append.mp h with hrest | hlast
      · exact ih (n / 10) (by omega) hrest
      · rw [List.mem_singleton.mp hlast]
        exact hunit

theorem digits_ne_nil (n : Nat) : digits n ≠ [] := by
  rw [digits]
  split <;> simp

theorem foldlM_digits (n : Nat) : (digits n).foldlM extend 0 = some n := by
  induction n using Nat.strongRecOn with
  | ind n ih =>
    rw [digits]
    split
    · rename_i h
      simp [extend_unit]
      omega
    · rename_i h
      have := ih (n / 10) (by omega)
      simp [List.foldlM_append, this, extend_unit]
      omega

theorem value?_digits (n : Nat) : value? (digits n) = some n := by
  simp [value?, digits_ne_nil, foldlM_digits]

end Dataflow.Decimal
