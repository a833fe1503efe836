/-
# Minipython.Lib.RoundUp — rounding up to a multiple

`roundUp n k` is the least multiple of `k` that is not below `n`. Machine code rounds up to a power of two
with a mask; `toNat_alignMask` says when this is the same number.
-/
import Mathlib.Algebra.Order.Group.Nat
import Mathlib.Data.Nat.Bitwise

namespace Minipython.Lib

/-- The least multiple of `k` from `n` on. -/
def roundUp (n k : Nat) : Nat := (n + k - 1) / k * k

section RoundUp

variable {n m k : Nat}

theorem dvd_roundUp : k ∣ roundUp n k := Dvd.intro_left _ rfl

theorem le_roundUp (hk : 0 < k) : n ≤ roundUp n k := by
  have hdiv := Nat.div_add_mod (n + k - 1) k
  have hmod := Nat.mod_lt (n + k - 1) hk
  rw [Nat.mul_comm] at hdiv
  unfold roundUp
  omega

/-- No multiple of `k` from `n` on is smaller. -/
theorem roundUp_le (hm : k ∣ m) (h : n ≤ m) : roundUp n k ≤ m := by
  obtain ⟨c, rfl⟩ := hm
  rcases Nat.eq_zero_or_pos k with rfl | hk
  · simp [roundUp]
  have hlt : n + k - 1 < k * (c + 1) := by
    rw [Nat.mul_succ]
    omega
  have hdiv : (n + k - 1) / k ≤ c := Nat.lt_succ_iff.1 (Nat.div_lt_of_lt_mul hlt)
  calc roundUp n k = (n + k - 1) / k * k := rfl
    _ ≤ c * k := Nat.mul_le_mul_right k hdiv
    _ = k * c := Nat.mul_comm c k

theorem roundUp_of_dvd (hk : 0 < k) (h : k ∣ n) : roundUp n k = n :=
  Nat.le_antisymm (roundUp_le h (Nat.le_refl n)) (le_roundUp hk)

/-- Where the multiple lies below a power of two that `k` divides, so does the sum before it is masked. -/
theorem add_lt_of_roundUp_lt {w : Nat} (hk : 0 < k) (hw : k ∣ w) (h : roundUp n k < w) :
    n + k - 1 < w := by
  have hdiv := Nat.div_add_mod (n + k - 1) k
  have hmod := Nat.mod_lt (n + k - 1) hk
  rw [Nat.mul_comm] at hdiv
  have hdvd : k ∣ w - roundUp n k := Nat.dvd_sub hw dvd_roundUp
  have hle : k ≤ w - roundUp n k := Nat.le_of_dvd (by omega) hdvd
  unfold roundUp at hle h
  omega

end RoundUp

/-! ## Rounding with a mask -/

/-- To clear the low `k` bits is to round down to a multiple of `2 ^ k`. -/
theorem and_clearLow {x k w : Nat} (hx : x < 2 ^ w) (hk : k ≤ w) :
    x &&& (2 ^ w - 1 - (2 ^ k - 1)) = x / 2 ^ k * 2 ^ k := by
  have hpos := Nat.two_pow_pos k
  have hlt : 2 ^ k - 1 < 2 ^ w := by
    have hle := Nat.pow_le_pow_right (n := 2) (by decide) hk
    omega
  have hmask : 2 ^ w - 1 - (2 ^ k - 1) = 2 ^ w - (2 ^ k - 1 + 1) := by omega
  apply Nat.eq_of_testBit_eq
  intro i
  rw [hmask, Nat.testBit_and, Nat.testBit_two_pow_sub_succ hlt, Nat.testBit_two_pow_sub_one,
    Nat.testBit_mul_two_pow, Nat.testBit_div_two_pow]
  by_cases hki : k ≤ i
  · have hsum : i - k + k = i := by omega
    by_cases hiw : i < w
    · simp [hki, hiw]
    · have hbit : x.testBit i = false :=
        Nat.testBit_lt_two_pow (hx.trans_le (Nat.pow_le_pow_right (by decide) (by omega)))
      simp [hki, hbit]
  · have hik : i < k := by omega
    simp [hki, hik]

/-- The usual way to round up a machine word, where nothing overflows. -/
theorem toNat_alignMask {x a : UInt64} {k : Nat} (ha : a.toNat = 2 ^ k)
    (h : roundUp x.toNat a.toNat < 2 ^ 64) :
    ((x + a - 1) &&& ~~~(a - 1)).toNat = roundUp x.toNat a.toNat := by
  have hpos : 0 < a.toNat := by
    rw [ha]
    exact Nat.two_pow_pos k
  have hk : k < 64 := by
    have hlt := a.toNat_lt
    rw [ha] at hlt
    exact (Nat.pow_lt_pow_iff_right (by decide)).1 hlt
  have hdvd : a.toNat ∣ 2 ^ 64 := by
    rw [ha]
    exact Nat.pow_dvd_pow 2 (Nat.le_of_lt hk)
  have hsum := add_lt_of_roundUp_lt hpos hdvd h
  have hlow : (a - 1).toNat = a.toNat - 1 := by
    rw [UInt64.toNat_sub_of_le]
    · rfl
    · exact UInt64.le_iff_toNat_le.2 hpos
  have hx : (x + a - 1).toNat = x.toNat + a.toNat - 1 := by
    have hone : (1 : UInt64).toNat = 1 := rfl
    rw [UInt64.toNat_sub, UInt64.toNat_add, hone]
    omega
  rw [ha] at hsum
  rw [UInt64.toNat_and, UInt64.toNat_not, hlow, hx, ha]
  exact and_clearLow hsum hk.le

end Minipython.Lib
