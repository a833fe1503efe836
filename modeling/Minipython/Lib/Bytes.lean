/-
# Minipython.Lib.Bytes — raw memory as a function from offsets to bytes

A buffer is read through a pointer, so its content is a function of the offset and its length is the
business of whoever holds the pointer. Little-endian words are read with `le` and written with
`putLe`; `blit` is `memcpy` into a buffer at an offset and `window` is the pointer `b + off`.
-/
import Mathlib.Data.Nat.Basic
import Mathlib.Tactic.Ring

namespace Minipython.Lib

/-- What a pointer points to, byte by byte. -/
abbrev Bytes := Nat → UInt8

namespace Bytes

/-- Memory filled with zeros. -/
def zeros : Bytes := fun _ => 0

/-- The memory behind the pointer `b + off`. -/
def window (b : Bytes) (off : Nat) : Bytes := fun i => b (off + i)

/-- Copy `n` bytes of `src` to `dst + off`. -/
def blit (dst : Bytes) (off : Nat) (src : Bytes) (n : Nat) : Bytes := fun i =>
  if off ≤ i ∧ i < off + n then src (i - off) else dst i

/-- The little-endian value of the `n` bytes at `b + off`. -/
def le (b : Bytes) (off : Nat) : Nat → Nat
  | 0 => 0
  | n + 1 => (b off).toNat + 256 * le b (off + 1) n

/-- Store the low `n` bytes of `v` at `b + off`, least significant first. -/
def putLe (b : Bytes) (off n v : Nat) : Bytes := fun i =>
  if off ≤ i ∧ i < off + n then UInt8.ofNat (v / 256 ^ (i - off)) else b i

@[simp] theorem window_apply (b : Bytes) (off i : Nat) : window b off i = b (off + i) := rfl

theorem blit_inside {dst src : Bytes} {off n i : Nat} (h : i < n) :
    blit dst off src n (off + i) = src i := by
  simp [blit, h]

theorem blit_outside {dst src : Bytes} {off n i : Nat} (h : i < off ∨ off + n ≤ i) :
    blit dst off src n i = dst i := by
  unfold blit
  rw [if_neg]
  omega

theorem putLe_outside {b : Bytes} {off n v i : Nat} (h : i < off ∨ off + n ≤ i) :
    putLe b off n v i = b i := by
  unfold putLe
  rw [if_neg]
  omega

/-- A word depends on its own bytes only. -/
theorem le_congr {b b' : Bytes} {off off' : Nat} (n : Nat)
    (h : ∀ i, i < n → b (off + i) = b' (off' + i)) : le b off n = le b' off' n := by
  induction n generalizing off off' with
  | zero => rfl
  | succ n ih =>
      have h0 : b off = b' off' := by simpa using h 0 (by omega)
      have hrest : le b (off + 1) n = le b' (off' + 1) n := by
        refine ih fun i hi => ?_
        have := h (i + 1) (by omega)
        rwa [Nat.add_comm i 1, ← Nat.add_assoc, ← Nat.add_assoc] at this
      simp only [le, h0, hrest]

theorem le_lt (b : Bytes) (off n : Nat) : le b off n < 256 ^ n := by
  induction n generalizing off with
  | zero => simp [le]
  | succ n ih =>
      have h0 : (b off).toNat < 256 := (b off).toNat_lt
      have h1 := ih (off + 1)
      simp only [le, pow_succ]
      omega

/-- Reading back a stored word gives its low `n` bytes. -/
theorem le_putLe (b : Bytes) (off n v : Nat) : le (putLe b off n v) off n = v % 256 ^ n := by
  induction n generalizing b off v with
  | zero => simp [le, Nat.mod_one]
  | succ n ih =>
      have hhead : (putLe b off (n + 1) v) off = UInt8.ofNat v := by simp [putLe]
      have htail : le (putLe b off (n + 1) v) (off + 1) n
          = le (putLe b (off + 1) n (v / 256)) (off + 1) n := by
        refine le_congr n fun i hi => ?_
        have h1 : off ≤ off + 1 + i ∧ off + 1 + i < off + (n + 1) := by omega
        have h2 : off + 1 ≤ off + 1 + i ∧ off + 1 + i < off + 1 + n := by omega
        simp only [putLe, if_pos h1, if_pos h2]
        have e1 : off + 1 + i - off = i + 1 := by omega
        have e2 : off + 1 + i - (off + 1) = i := by omega
        rw [e1, e2, pow_succ', Nat.div_div_eq_div_mul]
      rw [le, hhead, htail, ih, pow_succ', Nat.mod_mul]
      simp

/-- Storing a word elsewhere does not change a word. -/
theorem le_putLe_disjoint {b : Bytes} {off n v off' n' : Nat}
    (h : off' + n' ≤ off ∨ off + n ≤ off') : le (putLe b off n v) off' n' = le b off' n' :=
  le_congr n' fun i hi => putLe_outside (by omega)

/-- The low part of a word is the word made of its first bytes. -/
theorem le_mod (b : Bytes) (off : Nat) {k n : Nat} (h : k ≤ n) :
    le b off n % 256 ^ k = le b off k := by
  induction n generalizing off k with
  | zero =>
      obtain rfl : k = 0 := by omega
      simp [le]
  | succ n ih =>
      cases k with
      | zero => simp [le, Nat.mod_one]
      | succ k =>
          have hb : (b off).toNat < 256 := (b off).toNat_lt
          have hrest := ih (off + 1) (k := k) (by omega)
          rw [le, pow_succ', Nat.mod_mul, Nat.add_mul_mod_self_left, Nat.mod_eq_of_lt hb,
            Nat.add_mul_div_left _ _ (by norm_num), Nat.div_eq_of_lt hb, Nat.zero_add, hrest, le]

/-- A word is made of its first bytes and the word behind them. -/
theorem le_add (b : Bytes) (off m n : Nat) :
    le b off (m + n) = le b off m + 256 ^ m * le b (off + m) n := by
  induction m generalizing off with
  | zero => simp [le]
  | succ m ih =>
      have hidx : off + 1 + m = off + (m + 1) := by omega
      rw [Nat.succ_add, le, le, ih, hidx]
      ring

/-- A word gives its bytes back. -/
theorem byte_le (b : Bytes) (off : Nat) {k n : Nat} (h : k < n) :
    UInt8.ofNat (le b off n / 256 ^ k) = b (off + k) := by
  induction n generalizing off k with
  | zero => exact absurd h (Nat.not_lt_zero k)
  | succ n ih =>
      have hb : (b off).toNat < 256 := (b off).toNat_lt
      cases k with
      | zero =>
          apply UInt8.toNat_inj.1
          rw [le, pow_zero, Nat.div_one, UInt8.toNat_ofNat', Nat.add_mul_mod_self_left]
          exact Nat.mod_eq_of_lt hb
      | succ k =>
          rw [le, pow_succ', ← Nat.div_div_eq_div_mul, Nat.add_mul_div_left _ _ (by norm_num),
            Nat.div_eq_of_lt hb, Nat.zero_add, ih (off + 1) (Nat.lt_of_succ_lt_succ h)]
          congr 1
          omega

/-- Equal words have equal bytes. -/
theorem le_inj {b b' : Bytes} {off off' n : Nat} :
    le b off n = le b' off' n ↔ ∀ i, i < n → b (off + i) = b' (off' + i) := by
  constructor
  · intro h i hi
    rw [← byte_le b off hi, ← byte_le b' off' hi, h]
  · exact le_congr n

theorem le_zeros (off n : Nat) : le zeros off n = 0 := by
  induction n generalizing off with
  | zero => rfl
  | succ n ih => rw [le, ih]; rfl

end Bytes

end Minipython.Lib
