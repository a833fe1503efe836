/-
# Minipython.Shfs.HashVersions — the two versions of the digest functions (hash.h)

With `__x86_64` the functions go through a digest in 8-byte words, behind which a mask takes the bytes that
are left over; without it they are byte loops and calls of `memcpy`, `memcmp` and `memset`. Both are written
down here with their 8-bit counters. An access outside the 64 bytes of a digest and a loop without an end are
faults. For up to 64 bytes both versions compute what `Hash` says.

For each version and each function there is a lemma that says how it ends and what it answers; the two
lemmas for one function have the same right side, and `digest_versions_agree` puts them together. A loop
over words is handled once (`forWords_rule`, `testWords_spec`): each turn is one word of eight bytes, and
the masked rest is the last one. That a word is a comparison of its bytes is `word_eq`.

The bound is that of `hash512_t`, which has 64 bytes; behind it there may be anything, and a read there is a
fault. Digests that compare equal agree in their first bytes, so that they have one bucket, whichever
version compared them.
-/
import Minipython.Lib.Loops
import Minipython.Shfs.HashWords
import Minipython.Shfs.Htable

namespace Minipython.Shfs

open Minipython.Lib

/-- What can go wrong in a digest function. -/
inductive DigestFault where
  /-- an access that is not within the 64 bytes of a digest -/
  | outside
  /-- a loop that does not end -/
  | endless
  deriving DecidableEq, Repr

namespace X86

/-- `*(uint64_t *) &h[i]`. -/
def word (h : Hash512) (i : Nat) : Except DigestFault UInt64 :=
  if i + 8 ≤ hash512Size then .ok (UInt64.ofNat (Bytes.le h i 8)) else .error .outside

/-- `*(uint64_t *) &h[i] = w`. -/
def setWord (h : Hash512) (i : Nat) (w : UInt64) : Except DigestFault Hash512 :=
  if i + 8 ≤ hash512Size then .ok (Bytes.putLe h i 8 w.toNat) else .error .outside

/-- `nbleft`. -/
def nbleft (hlen : UInt8) : UInt8 := hlen &&& 0x07

/-- `mask64`. -/
def mask64 (nbleft : UInt8) : UInt64 := ((1 : UInt64) <<< (nbleft <<< 3).toUInt64) - 1

/-- `for (; i < hlen; i += 8)`. -/
def forWords {σ ρ : Type} (hlen : UInt8) (body : Nat → σ → Except DigestFault (ρ ⊕ σ)) (s : σ) :
    Except DigestFault (ρ ⊕ (UInt8 × σ)) :=
  forLoop .endless 8 hlen body counterTurns 0 s

/-- `hash_copy`. -/
def hashCopy (dst src : Hash512) (hlen : UInt8) : Except DigestFault Hash512 := do
  let body i dst := do
    let dst ← setWord dst i (← word src i)
    return .inr dst
  match ← forWords (ρ := Empty) (hlen - nbleft hlen) body dst with
  | .inl r => nomatch r
  | .inr (i, dst) =>
      -- the last word is copied under the mask, so the bytes behind the digest become zero
      if nbleft hlen ≠ 0 then
        let w ← word src i.toNat
        setWord dst i.toNat (w &&& mask64 (nbleft hlen))
      else return dst

/-- The loop of the tests: `found` at a word ends the function with `r`, and behind the words `last` tests the
masked word. -/
def testWords (r r' : Int) (found : Nat → Except DigestFault Bool)
    (last : UInt64 → Nat → Except DigestFault Bool) (hlen : UInt8) : Except DigestFault Int := do
  let body i (_ : Unit) := do
    if ← found i then return .inl r
    else return .inr ()
  match ← forWords (hlen - nbleft hlen) body () with
  | .inl r => return r
  | .inr (i, _) =>
      if nbleft hlen ≠ 0 then
        if ← last (mask64 (nbleft hlen)) i.toNat then return r
        else return r'
      else return r'

/-- `hash_compare`. -/
def hashCompare (h0 h1 : Hash512) : UInt8 → Except DigestFault Int :=
  testWords 1 0 (fun i => do return (← word h0 i) != (← word h1 i))
    (fun mask i => do return (← word h0 i) &&& mask != (← word h1 i) &&& mask)

/-- `hash_is_zero`. -/
def hashIsZero (h : Hash512) : UInt8 → Except DigestFault Int :=
  testWords 0 1 (fun i => do return (← word h i) != 0) (fun mask i => do return (← word h i) &&& mask != 0)

/-- `hash_is_max`. -/
def hashIsMax (h : Hash512) : UInt8 → Except DigestFault Int :=
  testWords 0 1 (fun i => do return (← word h i) != 0xFFFFFFFFFFFFFFFF)
    (fun mask i => do return (← word h i) &&& mask != mask)

/-- `hash_clear`. -/
def hashClear (h : Hash512) (hlen : UInt8) : Except DigestFault Hash512 := do
  -- whole words, past the end of a digest that is no multiple of eight
  let body i h := do
    let h ← setWord h i 0
    return .inr h
  match ← forWords (ρ := Empty) hlen body h with
  | .inl r => nomatch r
  | .inr (_, h) => return h

end X86

namespace Portable

/-- `memcpy`. -/
def memcpy (dst src : Hash512) (n : Nat) : Except DigestFault Hash512 :=
  if n ≤ hash512Size then .ok (Bytes.blit dst 0 src n) else .error .outside

/-- `memset`. -/
def memset (h : Hash512) (c : UInt8) (n : Nat) : Except DigestFault Hash512 :=
  if n ≤ hash512Size then .ok (Bytes.blit h 0 (fun _ => c) n) else .error .outside

/-- `memcmp`: the difference of the first bytes that differ. -/
def memcmp (h0 h1 : Hash512) (n : Nat) : Except DigestFault Int :=
  if n ≤ hash512Size then
    match (List.range n).find? fun i => h0 i != h1 i with
    | none => .ok 0
    | some i => .ok ((h0 i).toNat - (h1 i).toNat)
  else .error .outside

/-- `h[i]`. -/
def byte (h : Hash512) (i : Nat) : Except DigestFault UInt8 :=
  if i < hash512Size then .ok (h i) else .error .outside

/-- `hash_copy`. -/
def hashCopy (dst src : Hash512) (hlen : UInt8) : Except DigestFault Hash512 := memcpy dst src hlen.toNat

/-- `hash_compare`. -/
def hashCompare (h0 h1 : Hash512) (hlen : UInt8) : Except DigestFault Int := do
  return if (← memcmp h0 h1 hlen.toNat) ≠ 0 then 1 else 0

/-- The byte loop that ends with 0 at a byte other than `v`, and with 1 behind the bytes. -/
def allBytes (v : UInt8) (h : Hash512) (hlen : UInt8) : Except DigestFault Int := do
  let body i (_ : Unit) := do
    if (← byte h i) != v then return .inl 0
    else return .inr ()
  match ← forLoop .endless 1 hlen body counterTurns 0 () with
  | .inl r => return r
  | .inr _ => return 1

/-- `hash_is_zero`. -/
def hashIsZero : Hash512 → UInt8 → Except DigestFault Int := allBytes 0

/-- `hash_is_max`. -/
def hashIsMax : Hash512 → UInt8 → Except DigestFault Int := allBytes 0xFF

/-- `hash_clear`. -/
def hashClear (h : Hash512) (hlen : UInt8) : Except DigestFault Hash512 := memset h 0x00 hlen.toNat

end Portable

/-! ## The word version -/

namespace X86

section Words

variable {h h0 h1 dst src : Hash512} {hlen : UInt8}

theorem word_eq {i : Nat} (hi : i + 8 ≤ hash512Size) :
    ∃ w, word h i = .ok w ∧ w.toNat = Bytes.le h i 8 := by
  refine ⟨UInt64.ofNat (Bytes.le h i 8), if_pos hi, ?_⟩
  rw [UInt64.toNat_ofNat']
  apply Nat.mod_eq_of_lt
  exact Bytes.le_lt h i 8

theorem setWord_eq {i : Nat} (hi : i + 8 ≤ hash512Size) (w : UInt64) :
    setWord h i w = .ok (Bytes.putLe h i 8 w.toNat) := if_pos hi

theorem nbleft_toNat (hlen : UInt8) : (nbleft hlen).toNat = hlen.toNat % 8 := by
  have hmask := Nat.and_two_pow_sub_one_eq_mod hlen.toNat 3
  rw [nbleft, UInt8.toNat_and]
  exact hmask

/-- The bytes in whole words. -/
theorem wholeWords_toNat (hlen : UInt8) : (hlen - nbleft hlen).toNat = hlen.toNat - hlen.toNat % 8 := by
  have hle : nbleft hlen ≤ hlen := by
    rw [UInt8.le_iff_toNat_le, nbleft_toNat]
    exact Nat.mod_le _ _
  rw [UInt8.toNat_sub_of_le _ _ hle, nbleft_toNat]

theorem nbleft_eq_zero {hlen : UInt8} : nbleft hlen = 0 ↔ hlen.toNat % 8 = 0 := by
  rw [← UInt8.toNat_inj, nbleft_toNat]
  rfl

/-- The mask takes the low bytes. -/
theorem mask64_toNat (hlen : UInt8) : (mask64 (nbleft hlen)).toNat = 2 ^ (8 * (hlen.toNat % 8)) - 1 := by
  have hall : ∀ m < 8, (mask64 (UInt8.ofNat m)).toNat = 2 ^ (8 * m) - 1 := by decide
  have hm := hall (hlen.toNat % 8) (Nat.mod_lt _ (by decide))
  rwa [← nbleft_toNat, UInt8.ofNat_toNat, nbleft_toNat] at hm

theorem masked_word {w : UInt64} {i : Nat} (hw : w.toNat = Bytes.le h i 8) (hlen : UInt8) :
    (w &&& mask64 (nbleft hlen)).toNat = Bytes.le h i (hlen.toNat % 8) := by
  have hlt : hlen.toNat % 8 < 8 := Nat.mod_lt _ (by decide)
  rw [UInt64.toNat_and, mask64_toNat, Nat.and_two_pow_sub_one_eq_mod, hw, Nat.pow_mul]
  exact Bytes.le_mod h i hlt.le

/-- A word loop under an invariant of the words done. -/
theorem forWords_rule {σ ρ : Type} {body : Nat → σ → Except DigestFault (ρ ⊕ σ)} (I : Nat → σ → Prop)
    (R : ρ → Prop) (hl : hlen.toNat ≤ hash512Size)
    (hbody : ∀ i s, i < hlen.toNat → i % 8 = 0 → I i s → (∃ r, body i s = .ok (.inl r) ∧ R r) ∨
      ∃ s', body i s = .ok (.inr s') ∧ I (i + 8) s') {s : σ} (hI : I 0 s) :
    ∃ x, forWords hlen body s = .ok x ∧
      LoopEnd hlen (fun i s => i % 8 = 0 ∧ i < hlen.toNat + 8 ∧ I i s) R x := by
  unfold hash512Size at hl
  apply forLoop_rule
  · rintro i s hi ⟨h8, -, hI⟩
    rcases hbody i s hi h8 hI with ⟨r, hr, hR⟩ | ⟨s', hs', hI'⟩
    · exact .inl ⟨r, hr, hR⟩
    · refine .inr ⟨s', hs', ?_, ?_, hI'⟩
      · show (i + 8) % 8 = 0
        omega
      · show i + 8 < hlen.toNat + 8
        omega
  · decide
  · show hlen.toNat + 8 ≤ 256
    omega
  · show hlen.toNat - 0 < 257
    omega
  · exact ⟨rfl, Nat.lt_add_left _ (by decide), hI⟩

/-- A test by the bytes of each word goes by the first `hlen` bytes. -/
theorem testWords_spec {r r' : Int} {found : Nat → Except DigestFault Bool}
    {last : UInt64 → Nat → Except DigestFault Bool} (bad : Nat → Prop) (hl : hlen.toNat ≤ hash512Size)
    (hfound : ∀ i, i + 8 ≤ hash512Size → ∃ b, found i = .ok b ∧ (b = true ↔ ∃ j < 8, bad (i + j)))
    (hlast : ∀ i, i + 8 ≤ hash512Size →
      ∃ b, last (mask64 (nbleft hlen)) i = .ok b ∧ (b = true ↔ ∃ j < hlen.toNat % 8, bad (i + j))) :
    (testWords r r' found last hlen = .ok r ∧ ∃ j < hlen.toNat, bad j) ∨
      testWords r r' found last hlen = .ok r' ∧ ∀ j < hlen.toNat, ¬ bad j := by
  unfold hash512Size at hl hfound hlast
  have hwhole := wholeWords_toNat hlen
  unfold testWords
  simp only
  -- no byte is bad in the words done
  have hloop := @forWords_rule (hlen - nbleft hlen) Unit Int
    (fun i _ => do if ← found i then return .inl r else return .inr ())
    (fun i _ => ∀ j < i, ¬ bad j) (fun x => x = r ∧ ∃ j < hlen.toNat, bad j)
    (by unfold hash512Size; omega)
    (by
      intro i s hi h8 hI
      rcases hfound i (by omega) with ⟨b, hb, hiff⟩
      rw [hb]
      cases b with
      | true =>
          rcases hiff.1 rfl with ⟨j, hj, hbad⟩
          exact .inl ⟨r, rfl, rfl, i + j, by omega, hbad⟩
      | false =>
          refine .inr ⟨(), rfl, fun j hj hbad => ?_⟩
          by_cases hji : j < i
          · exact hI j hji hbad
          · have heq : i + (j - i) = j := by omega
            exact Bool.false_ne_true (hiff.2 ⟨j - i, by omega, heq.symm ▸ hbad⟩))
    () (fun j hj => absurd hj (Nat.not_lt_zero j))
  rcases hloop with ⟨x, hx, hend⟩
  rw [hx]
  rcases x with x | ⟨i, _⟩
  · rcases hend with ⟨rfl, hbad⟩
    exact .inl ⟨rfl, hbad⟩
  · rcases hend with ⟨hge, h8, hlt, hnone⟩
    -- the loop ends at the last whole word
    have hi : i.toNat = hlen.toNat - hlen.toNat % 8 := by omega
    show ((if nbleft hlen ≠ 0 then _ else _) = _ ∧ _) ∨ (if nbleft hlen ≠ 0 then _ else _) = _ ∧ _
    by_cases h0 : nbleft hlen = 0
    · have hmod := nbleft_eq_zero.1 h0
      rw [if_neg (not_not.2 h0)]
      exact .inr ⟨rfl, fun j hj => hnone j (by omega)⟩
    · have hmod : hlen.toNat % 8 ≠ 0 := fun hm => h0 (nbleft_eq_zero.2 hm)
      rcases hlast i.toNat (by omega) with ⟨b, hb, hiff⟩
      rw [if_pos h0, hb]
      cases b with
      | true =>
          rcases hiff.1 rfl with ⟨j, hj, hbad⟩
          exact .inl ⟨rfl, i.toNat + j, by omega, hbad⟩
      | false =>
          refine .inr ⟨rfl, fun j hj hbad => ?_⟩
          by_cases hji : j < i.toNat
          · exact hnone j hji hbad
          · have heq : i.toNat + (j - i.toNat) = j := by omega
            exact Bool.false_ne_true (hiff.2 ⟨j - i.toNat, by omega, heq.symm ▸ hbad⟩)

/-- A test of a word for the value that `n` bytes of `v` have. -/
theorem le_eq_iff {v : UInt8} (h : Hash512) (i n : Nat) :
    Bytes.le h i n = Bytes.le (fun _ => v) i n ↔ ¬ ∃ j < n, h (i + j) ≠ v := by
  rw [Bytes.le_inj]
  simp

/-- The values that the tests compare whole and masked words with. -/
theorem le_max (i : Nat) {n : Nat} (hn : n ≤ 8) : Bytes.le (fun _ => 0xFF) i n = 2 ^ (8 * n) - 1 := by
  have hshift : ∀ n i, Bytes.le (fun _ => 0xFF) i n = Bytes.le (fun _ => 0xFF) 0 n := fun n i =>
    Bytes.le_congr n fun _ _ => rfl
  have hall : ∀ n ≤ 8, Bytes.le (fun _ => 0xFF) 0 n = 2 ^ (8 * n) - 1 := by decide
  rw [hshift, hall n hn]

theorem hashCompare_spec (h0 h1 : Hash512) (hl : hlen.toNat ≤ hash512Size) :
    (hashCompare h0 h1 hlen = .ok 1 ∧ ¬ SameHash hlen.toNat h0 h1) ∨
      hashCompare h0 h1 hlen = .ok 0 ∧ SameHash hlen.toNat h0 h1 := by
  unfold hashCompare
  have htest := @testWords_spec hlen 1 0 (fun i => do return (← word h0 i) != (← word h1 i))
    (fun mask i => do return (← word h0 i) &&& mask != (← word h1 i) &&& mask)
    (fun j => h0 j ≠ h1 j) hl
    (by
      intro i hi
      rcases word_eq (h := h0) hi with ⟨w0, hw0, hv0⟩
      rcases word_eq (h := h1) hi with ⟨w1, hw1, hv1⟩
      rw [hw0, hw1]
      refine ⟨_, rfl, ?_⟩
      rw [bne_iff_ne, Ne, ← UInt64.toNat_inj, hv0, hv1, Bytes.le_inj]
      simp)
    (by
      intro i hi
      rcases word_eq (h := h0) hi with ⟨w0, hw0, hv0⟩
      rcases word_eq (h := h1) hi with ⟨w1, hw1, hv1⟩
      rw [hw0, hw1]
      refine ⟨_, rfl, ?_⟩
      rw [bne_iff_ne, Ne, ← UInt64.toNat_inj, masked_word hv0, masked_word hv1, Bytes.le_inj]
      simp)
  rcases htest with ⟨htest, j, hj, hne⟩ | ⟨htest, hall⟩
  · exact .inl ⟨htest, fun hs => hne (hs j hj)⟩
  · exact .inr ⟨htest, fun j hj => not_not.1 (hall j hj)⟩

/-- The two tests for one byte value, whose words are `w`, or `m` under the mask. -/
theorem allWords_spec {v : UInt8} {w : UInt64} {m : UInt64 → UInt64} (h : Hash512)
    (hl : hlen.toNat ≤ hash512Size) (hw : ∀ i, w.toNat = Bytes.le (fun _ => v) i 8)
    (hm : ∀ i, (m (mask64 (nbleft hlen))).toNat = Bytes.le (fun _ => v) i (hlen.toNat % 8)) :
    (testWords 0 1 (fun i => do return (← word h i) != w)
        (fun mask i => do return (← word h i) &&& mask != m mask) hlen = .ok 0 ∧
      ∃ j < hlen.toNat, h j ≠ v) ∨
    testWords 0 1 (fun i => do return (← word h i) != w)
        (fun mask i => do return (← word h i) &&& mask != m mask) hlen = .ok 1 ∧
      ∀ j < hlen.toNat, ¬ h j ≠ v := by
  apply testWords_spec (fun j => h j ≠ v) hl
  · intro i hi
    rcases word_eq (h := h) hi with ⟨x, hx, hv⟩
    rw [hx]
    refine ⟨_, rfl, ?_⟩
    rw [bne_iff_ne, Ne, ← UInt64.toNat_inj, hv, hw i, le_eq_iff, not_not]
  · intro i hi
    rcases word_eq (h := h) hi with ⟨x, hx, hv⟩
    rw [hx]
    refine ⟨_, rfl, ?_⟩
    rw [bne_iff_ne, Ne, ← UInt64.toNat_inj, masked_word hv, hm i, le_eq_iff, not_not]

theorem hashIsZero_spec (h : Hash512) (hl : hlen.toNat ≤ hash512Size) :
    (hashIsZero h hlen = .ok 0 ∧ ∃ j < hlen.toNat, h j ≠ 0) ∨
      hashIsZero h hlen = .ok 1 ∧ ∀ j < hlen.toNat, ¬ h j ≠ 0 :=
  @allWords_spec hlen 0 0 (fun _ => 0) h hl (fun i => (Bytes.le_zeros i 8).symm)
    fun i => (Bytes.le_zeros i _).symm

theorem hashIsMax_spec (h : Hash512) (hl : hlen.toNat ≤ hash512Size) :
    (hashIsMax h hlen = .ok 0 ∧ ∃ j < hlen.toNat, h j ≠ 0xFF) ∨
      hashIsMax h hlen = .ok 1 ∧ ∀ j < hlen.toNat, ¬ h j ≠ 0xFF := by
  have hlt : hlen.toNat % 8 < 8 := Nat.mod_lt _ (by decide)
  apply @allWords_spec hlen 0xFF 0xFFFFFFFFFFFFFFFF id h hl
  · intro i
    rw [le_max i (Nat.le_refl 8)]
    rfl
  · intro i
    rw [id, mask64_toNat, le_max i hlt.le]

/-- The word version of `hash_copy` is the one over bytes. -/
theorem hashCopy_eq (dst src : Hash512) (hl : hlen.toNat ≤ hash512Size) :
    hashCopy dst src hlen = .ok (Shfs.hashCopy dst src hlen.toNat) := by
  unfold hash512Size at hl
  have hwhole := wholeWords_toNat hlen
  have hloop := @forWords_rule (hlen - nbleft hlen) Hash512 Empty
    (fun i dst => do
      let dst ← setWord dst i (← word src i)
      return .inr dst)
    (fun i d => ∀ j, d j = if j < i then src j else dst j) (fun _ => False)
    (by unfold hash512Size; omega)
    (by
      intro i d hi h8 hI
      have hin : i + 8 ≤ hash512Size := by
        unfold hash512Size
        omega
      rcases word_eq (h := src) hin with ⟨w, hw, hv⟩
      rw [hw]
      show _ ∨ ∃ s', (setWord d i w >>= fun dst => Except.ok (Sum.inr dst)) = _ ∧ _
      rw [setWord_eq hin]
      refine .inr ⟨_, rfl, fun j => ?_⟩
      have hmask := putLe_mask d src i (Nat.le_refl 8) j
      rw [Bytes.le_mod src i (Nat.le_refl 8)] at hmask
      rw [hv, hmask]
      by_cases hlow : i ≤ j ∧ j < i + 8
      · rw [if_pos hlow, if_pos hlow.2]
      · rw [if_neg hlow, if_neg hlow, hI j]
        exact if_congr (by omega) rfl rfl)
    dst (fun j => (if_neg (Nat.not_lt_zero j)).symm)
  unfold hashCopy
  simp only
  rcases hloop with ⟨x, hx, hend⟩
  rw [hx]
  rcases x with x | ⟨i, d⟩
  · exact x.elim
  · rcases hend with ⟨hge, h8, hlt, hd⟩
    have hi : i.toNat = hlen.toNat - hlen.toNat % 8 := by omega
    show (if nbleft hlen ≠ 0 then _ else Except.ok d) = _
    by_cases h0 : nbleft hlen = 0
    · have hmod := nbleft_eq_zero.1 h0
      rw [if_neg (not_not.2 h0)]
      congr 1
      funext j
      rw [hd j, Shfs.hashCopy, hashWordEnd]
      by_cases hj : j < hlen.toNat
      · rw [if_pos (by omega), if_pos hj]
      · rw [if_neg (by omega), if_neg hj, if_neg (by omega)]
    · have hmod : hlen.toNat % 8 ≠ 0 := fun hm => h0 (nbleft_eq_zero.2 hm)
      have hin : i.toNat + 8 ≤ hash512Size := by
        unfold hash512Size
        omega
      rcases word_eq (h := src) hin with ⟨w, hw, hv⟩
      rw [if_pos h0, hw]
      show setWord d i.toNat _ = _
      rw [setWord_eq hin, masked_word hv]
      congr 1
      funext j
      have hmask := putLe_mask d src i.toNat (Nat.mod_lt hlen.toNat (by decide : 0 < 8)).le j
      rw [Bytes.le_mod src i.toNat (Nat.mod_lt hlen.toNat (by decide : 0 < 8)).le] at hmask
      rw [hmask, hd j, Shfs.hashCopy, hashWordEnd]
      by_cases hj : j < hlen.toNat
      · rw [if_pos hj]
        by_cases hlow : i.toNat ≤ j
        · rw [if_pos (by omega)]
        · rw [if_neg (by omega), if_neg (by omega), if_pos (by omega)]
      · rw [if_neg hj, if_neg (by omega)]
        by_cases hjend : j < (hlen.toNat + 7) / 8 * 8
        · rw [if_pos (by omega), if_pos hjend]
        · rw [if_neg (by omega), if_neg hjend, if_neg (by omega)]

/-- The word version of `hash_clear` clears whole words. -/
theorem hashClear_eq (h : Hash512) (hl : hlen.toNat ≤ hash512Size) :
    hashClear h hlen = .ok (Shfs.hashClear h hlen.toNat) := by
  have hl' : hlen.toNat ≤ 64 := hl
  have hloop := @forWords_rule hlen Hash512 Empty
    (fun i h => do
      let h ← setWord h i 0
      return .inr h)
    (fun i d => ∀ j, d j = if j < i then 0 else h j) (fun _ => False) hl
    (by
      intro i d hi h8 hI
      have hin : i + 8 ≤ hash512Size := by
        unfold hash512Size
        omega
      rw [setWord_eq hin]
      refine .inr ⟨_, rfl, fun j => ?_⟩
      rw [Bytes.putLe]
      by_cases hlow : i ≤ j ∧ j < i + 8
      · rw [if_pos hlow, if_pos hlow.2]
        show UInt8.ofNat (0 / _) = 0
        rw [Nat.zero_div]
        rfl
      · rw [if_neg hlow, hI j]
        exact if_congr (by omega) rfl rfl)
    h (fun j => (if_neg (Nat.not_lt_zero j)).symm)
  unfold hashClear
  simp only
  rcases hloop with ⟨x, hx, hend⟩
  rw [hx]
  rcases x with x | ⟨i, d⟩
  · exact x.elim
  · rcases hend with ⟨hge, h8, hlt, hd⟩
    show Except.ok d = _
    congr 1
    funext j
    rw [hd j, Shfs.hashClear, hashWordEnd]
    exact if_congr (by omega) rfl rfl

end Words

end X86

/-! ## The byte version -/

namespace Portable

variable {hlen : UInt8}

theorem hashCompare_spec (h0 h1 : Hash512) (hl : hlen.toNat ≤ hash512Size) :
    (hashCompare h0 h1 hlen = .ok 1 ∧ ¬ SameHash hlen.toNat h0 h1) ∨
      hashCompare h0 h1 hlen = .ok 0 ∧ SameHash hlen.toNat h0 h1 := by
  unfold hashCompare memcmp
  rw [if_pos hl]
  cases hfind : (List.range hlen.toNat).find? fun i => h0 i != h1 i with
  | none =>
      refine .inr ⟨rfl, fun i hi => ?_⟩
      have hno := List.find?_eq_none.1 hfind i (List.mem_range.2 hi)
      simpa using hno
  | some i =>
      have hi : i < hlen.toNat := List.mem_range.1 (List.mem_of_find?_eq_some hfind)
      have hne : h0 i ≠ h1 i := by simpa using List.find?_some hfind
      have hdiff : ((h0 i).toNat : Int) - (h1 i).toNat ≠ 0 := by
        intro hzero
        apply hne
        rw [← UInt8.toNat_inj]
        omega
      refine .inl ⟨?_, fun hs => hne (hs i hi)⟩
      show Except.ok (if ((h0 i).toNat : Int) - (h1 i).toNat ≠ 0 then (1 : Int) else 0) = _
      rw [if_pos hdiff]

theorem allBytes_spec (v : UInt8) (h : Hash512) (hl : hlen.toNat ≤ hash512Size) :
    (allBytes v h hlen = .ok 0 ∧ ∃ j < hlen.toNat, h j ≠ v) ∨
      allBytes v h hlen = .ok 1 ∧ ∀ j < hlen.toNat, ¬ h j ≠ v := by
  have hl' : hlen.toNat ≤ 64 := hl
  have hloop := @forLoop_rule _ Unit Int DigestFault.endless 1 hlen
    (fun i _ => do
      if (← byte h i) != v then return .inl 0
      else return .inr ())
    (fun i _ => ∀ j < i, ¬ h j ≠ v) (fun x => x = 0 ∧ ∃ j < hlen.toNat, h j ≠ v)
    (by
      intro i _ hi hI
      have hbyte : byte h i = .ok (h i) := if_pos (lt_of_lt_of_le hi hl)
      rw [hbyte]
      by_cases hv : h i = v
      · refine .inr ⟨(), ?_, fun j hj => ?_⟩
        · show (if (h i != v) = true then _ else _) = _
          rw [if_neg (by simp [hv])]
          rfl
        · rcases Nat.lt_succ_iff_lt_or_eq.1 hj with hlt | rfl
          · exact hI j hlt
          · exact not_not.2 hv
      · refine .inl ⟨0, ?_, rfl, i, hi, hv⟩
        show (if (h i != v) = true then _ else _) = _
        rw [if_pos (by simpa using hv)]
        rfl)
    (by decide)
    (by
      show hlen.toNat + 1 ≤ 256
      omega)
    counterTurns 0 ()
    (by
      show hlen.toNat - 0 < 257
      omega)
    (fun j hj => absurd hj (Nat.not_lt_zero j))
  unfold allBytes
  simp only
  rcases hloop with ⟨x, hx, hend⟩
  rw [hx]
  rcases x with x | ⟨i, _⟩
  · rcases hend with ⟨rfl, hbad⟩
    exact .inl ⟨rfl, hbad⟩
  · exact .inr ⟨rfl, fun j hj => hend.2 j (lt_of_lt_of_le hj hend.1)⟩

theorem hashCopy_spec (dst src : Hash512) (hl : hlen.toNat ≤ hash512Size) :
    ∃ d, hashCopy dst src hlen = .ok d ∧ SameHash hlen.toNat d src := by
  refine ⟨_, if_pos hl, fun i hi => ?_⟩
  have hin := @Bytes.blit_inside dst src 0 hlen.toNat i hi
  rwa [Nat.zero_add] at hin

theorem hashClear_spec (h : Hash512) (hl : hlen.toNat ≤ hash512Size) :
    ∃ d, hashClear h hlen = .ok d ∧ SameHash hlen.toNat d Bytes.zeros := by
  refine ⟨_, if_pos hl, fun i hi => ?_⟩
  have hin := @Bytes.blit_inside h (fun _ => 0x00) 0 hlen.toNat i hi
  rwa [Nat.zero_add] at hin

end Portable

/-! ## Both versions -/

/-- The versions agree: for digests of up to 64 bytes each function ends in both, without an access outside
the digest, and answers alike or leaves the same bytes; and digests that compare equal are in one bucket.
What agrees is the answer of each comparison and the first `hlen` bytes that each copy leaves. -/
theorem digest_versions_agree (hlen : UInt8) (hl : hlen ≤ 64) :
    (∀ h0 h1, ∃ r, X86.hashCompare h0 h1 hlen = .ok r ∧ Portable.hashCompare h0 h1 hlen = .ok r) ∧
    (∀ h, ∃ r, X86.hashIsZero h hlen = .ok r ∧ Portable.hashIsZero h hlen = .ok r) ∧
    (∀ h, ∃ r, X86.hashIsMax h hlen = .ok r ∧ Portable.hashIsMax h hlen = .ok r) ∧
    (∀ dst src, ∃ d d', X86.hashCopy dst src hlen = .ok d ∧ Portable.hashCopy dst src hlen = .ok d' ∧
      SameHash hlen.toNat d d') ∧
    (∀ h, ∃ d d', X86.hashClear h hlen = .ok d ∧ Portable.hashClear h hlen = .ok d' ∧
      SameHash hlen.toNat d d') ∧
    ∀ h0 h1 nbBkts, X86.hashCompare h0 h1 hlen = .ok 0 →
      htableBktNo h0 hlen.toNat nbBkts = htableBktNo h1 hlen.toNat nbBkts := by
  have hl' : hlen.toNat ≤ hash512Size := UInt8.le_iff_toNat_le.1 hl
  have htest : ∀ {x y : Except DigestFault Int} {p : Prop} {a b : Int},
      (x = .ok a ∧ p ∨ x = .ok b ∧ ¬ p) → (y = .ok a ∧ p ∨ y = .ok b ∧ ¬ p) →
      ∃ r, x = .ok r ∧ y = .ok r := by
    rintro x y p a b (⟨hx, hp⟩ | ⟨hx, hp⟩) (⟨hy, hp'⟩ | ⟨hy, hp'⟩)
    · exact ⟨a, hx, hy⟩
    · exact absurd hp hp'
    · exact absurd hp' hp
    · exact ⟨b, hx, hy⟩
  have hall : ∀ {h : Hash512} {v : UInt8}, (∀ j < hlen.toNat, ¬ h j ≠ v) ↔ ¬ ∃ j < hlen.toNat, h j ≠ v :=
    fun {h v} => ⟨fun hno ⟨j, hj, hne⟩ => hno j hj hne, fun hno j hj hne => hno ⟨j, hj, hne⟩⟩
  refine ⟨fun h0 h1 => ?_, fun h => ?_, fun h => ?_, fun dst src => ?_, fun h => ?_, fun h0 h1 nbBkts heq => ?_⟩
  · have hx := X86.hashCompare_spec h0 h1 hl'
    have hy := Portable.hashCompare_spec h0 h1 hl'
    exact htest hx.symm hy.symm
  · have hx := X86.hashIsZero_spec h hl'
    have hy := Portable.allBytes_spec 0 h hl'
    rw [hall] at hx hy
    exact htest hx hy
  · have hx := X86.hashIsMax_spec h hl'
    have hy := Portable.allBytes_spec 0xFF h hl'
    rw [hall] at hx hy
    exact htest hx hy
  · rcases Portable.hashCopy_spec dst src hl' with ⟨d', hd', hsame⟩
    exact ⟨_, d', X86.hashCopy_eq dst src hl', hd', (hashCopy_same _ _ _).trans hsame.symm⟩
  · rcases Portable.hashClear_spec h hl' with ⟨d', hd', hsame⟩
    refine ⟨_, d', X86.hashClear_eq h hl', hd', fun i hi => ?_⟩
    rw [hsame i hi]
    exact hashIsZero_iff.1 (hashIsZero_hashClear h _) i hi
  · rcases X86.hashCompare_spec h0 h1 hl' with ⟨hne, -⟩ | ⟨-, hsame⟩
    · rw [heq] at hne
      exact absurd (Except.ok.inj hne) (by decide)
    · exact htableBktNo_congr nbBkts hsame

/-- Digests of 20 bytes. -/
theorem digest_versions_agree_20 :
    (∀ h0 h1, ∃ r, X86.hashCompare h0 h1 20 = .ok r ∧ Portable.hashCompare h0 h1 20 = .ok r) ∧
    (∀ h, ∃ r, X86.hashIsZero h 20 = .ok r ∧ Portable.hashIsZero h 20 = .ok r) ∧
    (∀ h, ∃ r, X86.hashIsMax h 20 = .ok r ∧ Portable.hashIsMax h 20 = .ok r) ∧
    (∀ dst src, ∃ d d', X86.hashCopy dst src 20 = .ok d ∧ Portable.hashCopy dst src 20 = .ok d' ∧
      SameHash 20 d d') ∧
    (∀ h, ∃ d d', X86.hashClear h 20 = .ok d ∧ Portable.hashClear h 20 = .ok d' ∧ SameHash 20 d d') ∧
    ∀ h0 h1 nbBkts, X86.hashCompare h0 h1 20 = .ok 0 → htableBktNo h0 20 nbBkts = htableBktNo h1 20 nbBkts :=
  digest_versions_agree 20 (by decide)

end Minipython.Shfs
