/-
# Minipython.Lib.Word — machine words where nothing overflows

The operations of `UInt64` agree with those of the numbers as long as the result is one of a word. A signed
word that is converted is the number itself, or the same above the others.

A counter of 32 bits goes up and down by one. It tells how many there are as long as it is not counted up
from its largest value, and it is zero when there are none.
-/
import Mathlib.Algebra.Group.Int.Defs
import Mathlib.Algebra.Order.Group.Nat

namespace Minipython.Lib.Word

variable {x y : UInt64}

theorem toNat_add (h : x.toNat + y.toNat < 2 ^ 64) : (x + y).toNat = x.toNat + y.toNat := by
  rw [UInt64.toNat_add, Nat.mod_eq_of_lt h]

theorem toNat_mul (h : x.toNat * y.toNat < 2 ^ 64) : (x * y).toNat = x.toNat * y.toNat := by
  rw [UInt64.toNat_mul, Nat.mod_eq_of_lt h]

theorem toNat_sub (h : y.toNat ≤ x.toNat) : (x - y).toNat = x.toNat - y.toNat :=
  UInt64.toNat_sub_of_le x y (UInt64.le_iff_toNat_le.2 h)

theorem toNat_ofNat {n : Nat} (h : n < 2 ^ 64) : (UInt64.ofNat n).toNat = n := by
  rw [UInt64.toNat_ofNat', Nat.mod_eq_of_lt h]

theorem toNat_max (x y : UInt64) : (max x y).toNat = max x.toNat y.toNat := by
  show (if x ≤ y then y else x).toNat = _
  by_cases h : x ≤ y
  · rw [if_pos h, Nat.max_eq_right (UInt64.le_iff_toNat_le.1 h)]
  · have hle : y.toNat ≤ x.toNat := by
      have hlt := mt UInt64.le_iff_toNat_le.2 h
      omega
    rw [if_neg h, Nat.max_eq_left hle]

/-! ## Counters -/

section Counters

variable {c : UInt32} {n : Nat}

/-- A counter is zero when it counts nothing. -/
theorem count_eq_zero : c = 0 ↔ c.toNat = 0 := by
  rw [← UInt32.toNat_inj]
  rfl

theorem count_eq_one : c = 1 ↔ c.toNat = 1 := by
  rw [← UInt32.toNat_inj]
  rfl

theorem count_pos : 0 < c ↔ 0 < c.toNat := UInt32.lt_iff_toNat_lt

theorem count_up (h : c.toNat + 1 < 2 ^ 32) : (c + 1).toNat = c.toNat + 1 := by
  have hone : (1 : UInt32).toNat = 1 := rfl
  rw [UInt32.toNat_add, hone, Nat.mod_eq_of_lt h]

theorem count_down (h : 0 < c.toNat) : (c - 1).toNat = c.toNat - 1 := by
  have hone : (1 : UInt32).toNat = 1 := rfl
  rw [UInt32.toNat_sub_of_le c 1 (UInt32.le_iff_toNat_le.2 h), hone]

theorem count_down_eq_zero (h : 0 < c.toNat) : c - 1 = 0 ↔ c.toNat = 1 := by
  rw [count_eq_zero, count_down h]
  omega

/-- Counting up and down, from a number of things that may be more than a counter holds. -/
theorem count_ofNat_succ (n : Nat) : UInt32.ofNat n + 1 = UInt32.ofNat (n + 1) := by
  rw [UInt32.ofNat_add]
  rfl

theorem count_ofNat_pred (h : 0 < n) : UInt32.ofNat n - 1 = UInt32.ofNat (n - 1) := by
  obtain ⟨m, rfl⟩ := Nat.exists_eq_succ_of_ne_zero (Nat.pos_iff_ne_zero.1 h)
  rw [Nat.succ_sub_one, ← count_ofNat_succ]
  exact UInt32.add_sub_cancel _ _

theorem count_ofNat (h : n < 2 ^ 32) : (UInt32.ofNat n).toNat = n := by
  rw [UInt32.toNat_ofNat', Nat.mod_eq_of_lt h]

theorem count_ofNat_eq_zero (h : n < 2 ^ 32) : UInt32.ofNat n = 0 ↔ n = 0 := by
  rw [count_eq_zero, count_ofNat h]

end Counters

/-! ## Signed words -/

theorem toInt_eq (z : Int64) : z.toInt =
    if z.toUInt64.toNat < 2 ^ 63 then (z.toUInt64.toNat : Int) else z.toUInt64.toNat - 2 ^ 64 := by
  have hz : z.toInt = z.toBitVec.toInt := rfl
  have hn : z.toUInt64.toNat = z.toBitVec.toNat := rfl
  rw [hz, BitVec.toInt_eq_toNat_cond, hn]
  by_cases h : z.toBitVec.toNat < 2 ^ 63
  · rw [if_pos (by omega), if_pos h]
  · rw [if_neg (by omega), if_neg h]
    rfl

theorem toNat_toUInt64_of_nonneg {z : Int64} (h : 0 ≤ z.toInt) : (z.toUInt64.toNat : Int) = z.toInt := by
  have hz := toInt_eq z
  have hlt := z.toUInt64.toNat_lt
  split at hz <;> omega

theorem toNat_toUInt64_of_neg {z : Int64} (h : z.toInt < 0) :
    (z.toUInt64.toNat : Int) = z.toInt + 2 ^ 64 := by
  have hz := toInt_eq z
  split at hz <;> omega

/-- The negation of a negative word is its absolute value, also for the least one. -/
theorem toNat_neg_toUInt64 {z : Int64} (h : z.toInt < 0) : ((-z).toUInt64.toNat : Int) = -z.toInt := by
  have hz := toNat_toUInt64_of_neg h
  have hlt := z.toUInt64.toNat_lt
  have hneg : (-z).toUInt64 = 0 - z.toUInt64 := by
    rw [Int64.toUInt64_neg, UInt64.zero_sub]
  have hzero : (0 : UInt64).toNat = 0 := rfl
  have hge := Int64.le_toInt z
  rw [hneg, UInt64.toNat_sub, hzero]
  omega

end Minipython.Lib.Word
