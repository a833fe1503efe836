/-
# Minipython.Shfs.HtableBucket — the bucket of a digest on disk (htable.h)

`_htable_bkt_no` is meant to take up to eight bytes of the digest as a little-endian number, modulo the number of
buckets. Its variable `h64` has 32 bits, so the bytes from the fifth on are lost. They do not matter exactly if
their part of the number is a multiple of the number of buckets (`htable_bkt_no_iff`), as it is for every power
of two up to 2 ^ 32.

`InLeBucket` is the rule as the comments of the function have it: the bucket is the little-endian number of
the first eight bytes, or of all there are, modulo the number of buckets, and adding and looking up go to
that bucket. The second half follows the first, as both call `_htable_bkt_no` (`htableAdd_bucket`,
`htableLookup_eq`). So the rule is about one number, and `htableBktNo_eq` says which one the code takes.

Nothing is lost by the other number within one program: an element is looked for where it was put. It is the
number on disk that differs from what the comments describe.
-/
import Mathlib.Data.Int.ModEq
import Minipython.Lib.Machine
import Minipython.Shfs.Htable

namespace Minipython.Shfs

open Minipython.Lib
open Htable

/-- The bucket of the first eight bytes of a digest, or of all if it is shorter. -/
def leBucket (h : Hash512) (hlen nbBkts : Nat) : Nat := Bytes.le h 0 (min hlen 8) % nbBkts

/-- The first slot of the bucket `b` with the digest. -/
def searchBucket (bt : Htable) (h : Hash512) (b : Nat) : Option HtableEl :=
  ((List.range bt.elPerBkt).find? fun i => !hashCompare (bt.h (b, i)) h bt.hlen).map (b, ·)

/-- The digest is numbered by its first eight bytes, added to that bucket and searched there. -/
structure InLeBucket (h : Hash512) (hlen nbBkts : Nat) : Prop where
  number : htableBktNo h hlen nbBkts = leBucket h hlen nbBkts
  added : ∀ bt el bt', bt.hlen = hlen → bt.nbBkts = nbBkts → htableAdd bt h = .ok (some el, bt') →
    el.1 = leBucket h hlen nbBkts
  searched : ∀ bt, bt.hlen = hlen → bt.nbBkts = nbBkts → htableLookup bt h =
    if hashIsZero h hlen then none else searchBucket bt h (leBucket h hlen nbBkts)

/-! ## The bytes that count -/

section Number

variable {h : Hash512} {hlen nbBkts : Nat}

/-- A load of four bytes is all that is left of a load of eight. -/
theorem le_eight (h : Hash512) : Bytes.le h 0 8 % u32Size = Bytes.le h 0 4 := by
  have hpow : u32Size = 256 ^ 4 := by norm_num [u32Size]
  rw [hpow]
  exact Bytes.le_mod h 0 (by decide)

/-- The bucket is that of the first four bytes. -/
theorem htableBktNo_eq (h : Hash512) (hlen nbBkts : Nat) :
    htableBktNo h hlen nbBkts = Bytes.le h 0 (min hlen 4) % nbBkts := by
  have hsmall : ∀ m, 256 ^ 4 ≤ m → Bytes.le h 0 4 % m = Bytes.le h 0 4 := fun m hm =>
    Nat.mod_eq_of_lt (Nat.lt_of_lt_of_le (Bytes.le_lt h 0 4) hm)
  match hlen with
  | 0 => exact (Nat.zero_mod nbBkts).symm
  | 1 => simp [htableBktNo, Bytes.le]
  | 2 => rfl
  | 3 =>
      have hthree : Bytes.le h 0 4 % 256 ^ 3 = Bytes.le h 0 3 := Bytes.le_mod h 0 (by decide)
      have hmask : 2 ^ 24 = 256 ^ 3 := by norm_num
      rw [htableBktNo, hmask, hthree]
      rfl
  | 4 => rfl
  | 5 =>
      rw [htableBktNo, le_eight, hsmall _ (by decide)]
      rfl
  | 6 =>
      rw [htableBktNo, le_eight, hsmall _ (by decide)]
      rfl
  | 7 =>
      rw [htableBktNo, le_eight, hsmall _ (by decide)]
      rfl
  | n + 8 =>
      have hmin : min (n + 8) 4 = 4 := Nat.min_eq_right (by omega)
      rw [hmin, ← le_eight]
      rfl

/-- The other bytes up to the eighth do not matter exactly if their part of the number is a multiple of the
number of buckets. -/
theorem number_iff (h : Hash512) (hlen nbBkts : Nat) :
    htableBktNo h hlen nbBkts = leBucket h hlen nbBkts ↔
      hlen ≤ 4 ∨ nbBkts ∣ u32Size * Bytes.le h 4 (min hlen 8 - 4) := by
  rw [htableBktNo_eq, leBucket]
  rcases Nat.lt_or_ge 4 hlen with hlong | hshort
  · have hsplit : min hlen 8 = 4 + (min hlen 8 - 4) := by omega
    have hpow : 256 ^ 4 = u32Size := by norm_num [u32Size]
    rw [Nat.min_eq_right (by omega : 4 ≤ hlen)]
    have hnum : Bytes.le h 0 (min hlen 8) = Bytes.le h 0 4 + u32Size * Bytes.le h 4 (min hlen 8 - 4) := by
      calc Bytes.le h 0 (min hlen 8) = Bytes.le h 0 (4 + (min hlen 8 - 4)) := congrArg _ hsplit
        _ = Bytes.le h 0 4 + u32Size * Bytes.le h 4 (min hlen 8 - 4) := by rw [Bytes.le_add, hpow, Nat.zero_add]
    rw [hnum]
    show Bytes.le h 0 4 ≡ _ [MOD nbBkts] ↔ _
    rw [Nat.modEq_iff_dvd' (Nat.le_add_right _ _), Nat.add_sub_cancel_left]
    exact ⟨Or.inr, fun hor => hor.resolve_left (by omega)⟩
  · have hsame : min hlen 4 = min hlen 8 := by omega
    rw [hsame]
    exact ⟨fun _ => Or.inl hshort, fun _ => rfl⟩

end Number

/-! ## Where a digest is put and searched -/

section Place

variable {bt bt' : Htable} {h : Hash512} {el : HtableEl}

theorem htableAdd_bucket (hadd : htableAdd bt h = .ok (some el, bt')) :
    el.1 = htableBktNo h bt.hlen bt.nbBkts := by
  unfold htableAdd at hadd
  split at hadd
  · cases hadd
  · dsimp only at hadd
    split at hadd
    · cases hadd
    · rename_i i _
      rcases ok_of_bind hadd with ⟨u, -, hu⟩
      cases hu
      rfl

theorem htableLookup_eq (bt : Htable) (h : Hash512) : htableLookup bt h =
    if hashIsZero h bt.hlen then none else searchBucket bt h (htableBktNo h bt.hlen bt.nbBkts) := rfl

/-- The rule for buckets is kept exactly for digests of at most four bytes and where the part of the fifth
to eighth byte is a multiple of the number of buckets. The rule is that the bucket is the little-endian
number of up to eight bytes, modulo the number of buckets, for adding and for looking up. -/
theorem htable_bkt_no_iff (h : Hash512) (hlen nbBkts : Nat) :
    InLeBucket h hlen nbBkts ↔ hlen ≤ 4 ∨ nbBkts ∣ u32Size * Bytes.le h 4 (min hlen 8 - 4) := by
  rw [← number_iff]
  constructor
  · exact InLeBucket.number
  · intro hnum
    refine ⟨hnum, ?_, ?_⟩
    · rintro bt el bt' rfl rfl hadd
      rw [← hnum]
      exact htableAdd_bucket hadd
    · rintro bt rfl rfl
      rw [← hnum]
      exact htableLookup_eq bt h

/-- The number 2 ^ 32 in three buckets: it belongs to the second, and goes to the first. -/
theorem htable_bkt_no_high :
    htableBktNo (Function.update Bytes.zeros 4 1) 8 3 = 0 ∧ leBucket (Function.update Bytes.zeros 4 1) 8 3 = 1 ∧
      ¬InLeBucket (Function.update Bytes.zeros 4 1) 8 3 := by
  have hcode : htableBktNo (Function.update Bytes.zeros 4 1) 8 3 = 0 := by decide
  have hrule : leBucket (Function.update Bytes.zeros 4 1) 8 3 = 1 := by decide
  refine ⟨hcode, hrule, fun hin => ?_⟩
  have hnum := hin.number
  rw [hcode, hrule] at hnum
  cases hnum

end Place

end Minipython.Shfs
