/-
# Minipython.Shfs.Hash — digests (hash.h)

A `hash512_t` is 64 bytes of which the first `hlen` count. The functions are the x86_64 branch of the
header read byte by byte: the word loops compare and test exactly the first `hlen` bytes, and copying
and clearing work on whole 8-byte words, so they also zero the rest of the last word.
-/
import Minipython.Shfs.Defs

namespace Minipython.Shfs

open Minipython.Lib

/-- `hash512_t`. -/
abbrev Hash512 := Bytes

/-- The first byte behind the last word that holds one of the first `hlen` bytes. -/
def hashWordEnd (hlen : Nat) : Nat := (hlen + 7) / 8 * 8

/-- `hash_copy`: the masked last word clears its bytes from `hlen` on. -/
def hashCopy (dst src : Hash512) (hlen : Nat) : Hash512 := fun i =>
  if i < hlen then src i else if i < hashWordEnd hlen then 0 else dst i

/-- `hash_compare`, `true` for a difference. -/
def hashCompare (h0 h1 : Hash512) (hlen : Nat) : Bool :=
  (List.range hlen).any fun i => h0 i != h1 i

/-- `hash_is_zero`. -/
def hashIsZero (h : Hash512) (hlen : Nat) : Bool :=
  (List.range hlen).all fun i => h i == 0

/-- `hash_clear`. -/
def hashClear (h : Hash512) (hlen : Nat) : Hash512 := fun i =>
  if i < hashWordEnd hlen then 0 else h i

/-- Two digests agree on the bytes that count. -/
def SameHash (hlen : Nat) (h0 h1 : Hash512) : Prop := ∀ i, i < hlen → h0 i = h1 i

namespace SameHash

variable {hlen : Nat} {h0 h1 h2 : Hash512}

theorem refl (h : Hash512) : SameHash hlen h h := fun _ _ => rfl

theorem symm (h : SameHash hlen h0 h1) : SameHash hlen h1 h0 := fun i hi => (h i hi).symm

theorem trans (h : SameHash hlen h0 h1) (h' : SameHash hlen h1 h2) : SameHash hlen h0 h2 :=
  fun i hi => (h i hi).trans (h' i hi)

end SameHash

theorem hashCompare_eq_false {h0 h1 : Hash512} {hlen : Nat} :
    hashCompare h0 h1 hlen = false ↔ SameHash hlen h0 h1 := by
  simp [hashCompare, SameHash]

theorem hashIsZero_iff {h : Hash512} {hlen : Nat} :
    hashIsZero h hlen = true ↔ ∀ i, i < hlen → h i = 0 := by
  simp [hashIsZero]

theorem hashIsZero_congr {h0 h1 : Hash512} {hlen : Nat} (h : SameHash hlen h0 h1) :
    hashIsZero h0 hlen = hashIsZero h1 hlen := by
  rw [Bool.eq_iff_iff, hashIsZero_iff, hashIsZero_iff]
  exact forall₂_congr fun i hi => by rw [h i hi]

theorem hashCompare_congr {a a' b b' : Hash512} {hlen : Nat} (h : SameHash hlen a a')
    (h' : SameHash hlen b b') : hashCompare a b hlen = hashCompare a' b' hlen := by
  have : SameHash hlen a b ↔ SameHash hlen a' b' :=
    ⟨fun hab => h.symm.trans (hab.trans h'), fun hab => h.trans (hab.trans h'.symm)⟩
  rw [Bool.eq_iff_iff, ← not_iff_not]
  simpa [hashCompare_eq_false] using this

/-- A copied digest agrees with its source. -/
theorem hashCopy_same (dst src : Hash512) (hlen : Nat) : SameHash hlen (hashCopy dst src hlen) src :=
  fun i hi => by simp [hashCopy, hi]

@[simp] theorem hashIsZero_hashCopy (dst src : Hash512) (hlen : Nat) :
    hashIsZero (hashCopy dst src hlen) hlen = hashIsZero src hlen :=
  hashIsZero_congr (hashCopy_same dst src hlen)

/-- A cleared digest is the zero digest. -/
theorem hashIsZero_hashClear (h : Hash512) (hlen : Nat) :
    hashIsZero (hashClear h hlen) hlen = true := by
  rw [hashIsZero_iff]
  intro i hi
  have : i < hashWordEnd hlen := by
    unfold hashWordEnd
    omega
  simp [hashClear, this]

/-- Zero memory is the zero digest. -/
theorem hashIsZero_zeros (hlen : Nat) : hashIsZero Bytes.zeros hlen = true :=
  hashIsZero_iff.2 fun _ _ => rfl

/-- The digest is the head of an entry. -/
theorem SameHentry.sameHash {e e' : Hentry} {hlen : Nat} (h : SameHentry e e') (hl : hlen ≤ 64) :
    SameHash hlen e e' := fun i hi => by
  apply h
  unfold sizeofHentry
  omega

end Minipython.Shfs
