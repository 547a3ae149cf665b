import Mathlib.Data.Int.Init
import Mathlib.Tactic.Ring

/-!
# Machine words read as signed integers

A C `int` of 32 bits and an `unsigned int` share their representation. A word is
a `UInt32` here, and `Thunix.toInt` reads it in two's complement; an arithmetic
result is put back with `Thunix.ofInt`, which wraps.
-/

namespace Thunix

/-- The word as a signed integer. -/
def toInt (w : UInt32) : ℤ := if w.toNat < 2 ^ 31 then w.toNat else w.toNat - 2 ^ 32

/-- The word that represents an integer modulo `2 ^ 32`. -/
def ofInt (i : ℤ) : UInt32 := UInt32.ofNat (i % 2 ^ 32).toNat

theorem toInt_of_lt {w : UInt32} (h : w.toNat < 2 ^ 31) : toInt w = w.toNat := if_pos h

theorem toNat_ofInt {i : ℤ} (h0 : 0 ≤ i) (h : i < 2 ^ 32) : ((ofInt i).toNat : ℤ) = i := by
  rw [ofInt, UInt32.toNat_ofNat']
  omega

theorem toNat_ofInt_natCast {n : ℕ} (h : n < 2 ^ 32) : (ofInt n).toNat = n := by
  have := toNat_ofInt (i := n) (by omega) (by omega)
  omega

/-- Small integers survive the trip through a word. -/
theorem toInt_ofInt {i : ℤ} (h0 : -2 ^ 31 ≤ i) (h : i < 2 ^ 31) : toInt (ofInt i) = i := by
  rw [toInt, ofInt, UInt32.toNat_ofNat']
  split <;> omega

end Thunix
