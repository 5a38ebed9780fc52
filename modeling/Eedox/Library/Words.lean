import Mathlib.Algebra.Group.Int.Defs
import Mathlib.Algebra.Group.Nat.Defs
import Mathlib.Order.Nat

namespace Eedox.Library.Words

def add32 (a b : ℕ) : ℕ := (a + b) % 2 ^ 32

def sub32 (a b : ℕ) : ℕ := (a + 2 ^ 32 - b) % 2 ^ 32

theorem add32_of_lt {a b : ℕ} (h : a + b < 2 ^ 32) : add32 a b = a + b := Nat.mod_eq_of_lt h

theorem sub32_of_le {a b : ℕ} (h : b ≤ a) (ha : a < 2 ^ 32) : sub32 a b = a - b := by
  unfold sub32
  omega

/-- A word read as an `int` and put back. -/
theorem word_bmod {k : ℕ} (hk : k < 2 ^ 32) : (Int.bmod k (2 ^ 32) % 2 ^ 32).toNat = k := by
  have hmod := Int.bmod_emod (x := k) (m := 2 ^ 32)
  omega

end Eedox.Library.Words
