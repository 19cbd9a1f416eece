import Mathlib.Data.Int.Notation

/- The type int: 32 bits, and an operation whose result does not fit is an error. -/
namespace UC.Ints

def INT_MIN : Int := -2147483648

def INT_MAX : Int := 2147483647

def int (n : Int) : Option Int := if INT_MIN ≤ n ∧ n ≤ INT_MAX then some n else none

theorem int_fits {n : Int} (low : INT_MIN ≤ n) (high : n ≤ INT_MAX) : int n = some n :=
  if_pos ⟨low, high⟩

theorem int_index {n : Int} (low : -1 ≤ n) (high : n ≤ INT_MAX) : int n = some n := by
  apply int_fits _ high
  unfold INT_MIN
  omega

theorem int_too_large {n : Int} (large : INT_MAX < n) : int n = none :=
  if_neg fun fits => by omega

end UC.Ints
