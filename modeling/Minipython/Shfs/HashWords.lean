/-
# Minipython.Shfs.HashWords — the word loops of hash.h

On x86_64 the digest functions go through a `hash512_t` in 8-byte words. The functions here are those
loops over the 64 bytes of a digest: a load or a store that does not fit inside has no result. Up to 64
bytes they compute what `Hash` says (`hashCopyWords_eq` and its siblings); beyond, copying and clearing
always leave the digest.
-/
import Minipython.Shfs.Hash

namespace Minipython.Shfs

open Minipython.Lib

/-- `sizeof(hash512_t)`. -/
def hash512Size : Nat := 64

/-! ## The functions -/

/-- `*(uint64_t *) &h[i]`. -/
def load64 (h : Hash512) (i : Nat) : Option Nat :=
  if i + 8 ≤ hash512Size then some (Bytes.le h i 8) else none

/-- `*(uint64_t *) &h[i] = v`. -/
def store64 (h : Hash512) (i v : Nat) : Option Hash512 :=
  if i + 8 ≤ hash512Size then some (Bytes.putLe h i 8 v) else none

/-- The loop over whole words. It ends at the first word that passes the test. -/
def wordLoop (word : Nat → Option Bool) : Nat → Nat → Option Bool
  | 0, _ => some false
  | n + 1, i => do
      if ← word i then return true
      else wordLoop word n (i + 8)

/-- The whole words of a digest, then the bytes left over, in a masked word. `word n i` tests the low `n`
bytes of the word at `i`. -/
def testWords (word : Nat → Nat → Option Bool) (hlen : Nat) : Option Bool := do
  if ← wordLoop (word 8) (hlen / 8) 0 then return true
  else if hlen % 8 = 0 then return false
  else word (hlen % 8) (hlen - hlen % 8)

/-- `hash_compare`, `true` for a difference. -/
def hashCompareWords (h0 h1 : Hash512) (hlen : Nat) : Option Bool :=
  testWords (fun n i => do return (← load64 h0 i) % 256 ^ n != (← load64 h1 i) % 256 ^ n) hlen

/-- `hash_is_zero`. -/
def hashIsZeroWords (h : Hash512) (hlen : Nat) : Option Bool := do
  return !(← testWords (fun n i => do return (← load64 h i) % 256 ^ n != 0) hlen)

/-- The loop of `hash_copy` and of `hash_clear`. -/
def storeLoop (word : Nat → Option Nat) : Nat → Nat → Hash512 → Option Hash512
  | 0, _, dst => some dst
  | n + 1, i, dst => do
      let dst ← store64 dst i (← word i)
      storeLoop word n (i + 8) dst

/-- `hash_copy`. -/
def hashCopyWords (dst src : Hash512) (hlen : Nat) : Option Hash512 := do
  let dst ← storeLoop (load64 src) (hlen / 8) 0 dst
  if hlen % 8 = 0 then return dst
  let w ← load64 src (hlen - hlen % 8)
  store64 dst (hlen - hlen % 8) (w % 256 ^ (hlen % 8))

/-- `hash_clear`. Its 8-bit counter wraps for more than 248 bytes, behind the words counted here. -/
def hashClearWords (h : Hash512) (hlen : Nat) : Option Hash512 :=
  storeLoop (fun _ => some 0) ((hlen + 7) / 8) 0 h

/-- `h[i]`. -/
def load8 (h : Hash512) (i : Nat) : Option UInt8 := if i < hash512Size then some (h i) else none

/-- The bytes that `hash_unparse` prints. -/
def hashUnparse (h : Hash512) (hlen : Nat) : Option (List UInt8) := (List.range hlen).mapM (load8 h)

/-- The size of the load in `_htable_bkt_no`, at the start of the digest. -/
def htableBktNoLoad : Nat → Nat
  | 0 => 0
  | 1 => 1
  | 2 => 2
  | 3 | 4 => 4
  | _ => 8

/-! ## Up to 64 bytes -/

/-- A test that stays inside the digest and tells whether `p` holds. -/
def Decides (r : Option Bool) (p : Prop) : Prop := ∃ b, r = some b ∧ (b = true ↔ p)

section Inside

variable {h h0 h1 dst src : Hash512} {hlen : Nat} {bad : Nat → Prop}

/-- The loop finds what one of its words holds. -/
theorem wordLoop_decides {word : Nat → Option Bool} (n i : Nat)
    (hword : ∀ k, k < n → Decides (word (i + 8 * k)) (∃ j, j < 8 ∧ bad (i + 8 * k + j))) :
    Decides (wordLoop word n i) (∃ j, j < 8 * n ∧ bad (i + j)) := by
  induction n generalizing i with
  | zero => exact ⟨false, rfl, by simp⟩
  | succ n ih =>
      have hrest : Decides (wordLoop word n (i + 8)) (∃ j, j < 8 * n ∧ bad (i + 8 + j)) := by
        apply ih
        intro k hk
        have hk' := hword (k + 1) (Nat.succ_lt_succ hk)
        have heq : i + 8 * (k + 1) = i + 8 + 8 * k := by omega
        rw [heq] at hk'
        exact hk'
      have hsplit : (∃ j, j < 8 * (n + 1) ∧ bad (i + j)) ↔
          (∃ j, j < 8 ∧ bad (i + j)) ∨ ∃ j, j < 8 * n ∧ bad (i + 8 + j) := by
        constructor
        · rintro ⟨j, hj, hb⟩
          by_cases hj8 : j < 8
          · exact .inl ⟨j, hj8, hb⟩
          · have heq : i + 8 + (j - 8) = i + j := by omega
            exact .inr ⟨j - 8, by omega, heq ▸ hb⟩
        · rintro (⟨j, hj, hb⟩ | ⟨j, hj, hb⟩)
          · exact ⟨j, by omega, hb⟩
          · exact ⟨8 + j, by omega, (Nat.add_assoc i 8 j) ▸ hb⟩
      obtain ⟨b, hb, hfirst⟩ := hword 0 (Nat.succ_pos n)
      rw [Nat.mul_zero, Nat.add_zero] at hb hfirst
      rw [wordLoop, hb, hsplit, ← hfirst]
      cases b with
      | true => exact ⟨true, rfl, by simp⟩
      | false =>
          obtain ⟨b', hb', hiff⟩ := hrest
          exact ⟨b', hb', by simpa using hiff⟩

/-- A test that goes by the bytes of a word goes by the first `hlen` bytes of the digest. -/
theorem testWords_decides {word : Nat → Nat → Option Bool}
    (hword : ∀ n i, n ≤ 8 → i + 8 ≤ hash512Size → Decides (word n i) (∃ j, j < n ∧ bad (i + j)))
    (hl : hlen ≤ hash512Size) : Decides (testWords word hlen) (∃ j, j < hlen ∧ bad j) := by
  unfold hash512Size at hl hword
  obtain ⟨b, hb, hloop⟩ : Decides (wordLoop (word 8) (hlen / 8) 0) (∃ j, j < 8 * (hlen / 8) ∧ bad (0 + j)) :=
    wordLoop_decides _ _ fun k hk => hword 8 _ le_rfl (by omega)
  simp only [Nat.zero_add] at hloop
  rw [testWords, hb]
  cases b with
  | true =>
      obtain ⟨j, hj, hbad⟩ := hloop.1 rfl
      exact ⟨true, rfl, fun _ => ⟨j, by omega, hbad⟩, fun _ => rfl⟩
  | false =>
      have hnone : ∀ j, bad j → 8 * (hlen / 8) ≤ j := by
        intro j hbad
        by_contra hlt
        exact Bool.false_ne_true (hloop.2 ⟨j, Nat.not_le.1 hlt, hbad⟩)
      by_cases h0 : hlen % 8 = 0
      · refine ⟨false, by simp [h0], fun hh => (by cases hh), ?_⟩
        rintro ⟨j, hj, hbad⟩
        exact absurd (hnone j hbad) (by omega)
      · obtain ⟨b, hb, hlast⟩ := hword (hlen % 8) (hlen - hlen % 8) (by omega) (by omega)
        refine ⟨b, by simpa [h0] using hb, hlast.trans ⟨?_, ?_⟩⟩
        · rintro ⟨j, hj, hbad⟩
          exact ⟨_, by omega, hbad⟩
        · rintro ⟨j, hj, hbad⟩
          have hge := hnone j hbad
          have heq : hlen - hlen % 8 + (j - (hlen - hlen % 8)) = j := by omega
          exact ⟨j - (hlen - hlen % 8), by omega, heq.symm ▸ hbad⟩

theorem load64_eq {i : Nat} (hi : i + 8 ≤ hash512Size) : load64 h i = some (Bytes.le h i 8) := if_pos hi

theorem hashCompareWords_eq (hl : hlen ≤ hash512Size) :
    hashCompareWords h0 h1 hlen = some (hashCompare h0 h1 hlen) := by
  obtain ⟨b, hb, hiff⟩ : Decides (hashCompareWords h0 h1 hlen) (∃ j, j < hlen ∧ h0 j ≠ h1 j) := by
    apply testWords_decides _ hl
    intro n i hn hi
    rw [load64_eq hi, load64_eq hi]
    refine ⟨_, rfl, ?_⟩
    rw [bne_iff_ne, Ne, Bytes.le_mod h0 i hn, Bytes.le_mod h1 i hn, Bytes.le_inj]
    simp
  rw [hb, Option.some.injEq, Bool.eq_iff_iff, hiff]
  simp [hashCompare]

theorem hashIsZeroWords_eq (hl : hlen ≤ hash512Size) :
    hashIsZeroWords h hlen = some (hashIsZero h hlen) := by
  obtain ⟨b, hb, hiff⟩ : Decides
      (testWords (fun n i => do return (← load64 h i) % 256 ^ n != 0) hlen) (∃ j, j < hlen ∧ h j ≠ 0) := by
    apply testWords_decides _ hl
    intro n i hn hi
    rw [load64_eq hi]
    refine ⟨_, rfl, ?_⟩
    rw [bne_iff_ne, Ne, Bytes.le_mod h i hn, ← Bytes.le_zeros i n, Bytes.le_inj]
    simp [Bytes.zeros]
  unfold hashIsZeroWords
  rw [hb]
  show some (!b) = _
  rw [Option.some.injEq, Bool.eq_iff_iff, hashIsZero_iff, Bool.not_eq_true', ← Bool.not_eq_true, hiff]
  simp

/-- Storing the words of a digest one after the other. -/
theorem storeLoop_eq {word : Nat → Option Nat} (w : Nat → Nat) (n i : Nat) (dst : Hash512)
    (hin : i + 8 * n ≤ hash512Size) (hword : ∀ k, k < n → word (i + 8 * k) = some (w (i + 8 * k))) :
    ∃ d, storeLoop word n i dst = some d ∧ (∀ j, j < i ∨ i + 8 * n ≤ j → d j = dst j) ∧
      ∀ k j, k < n → j < 8 → d (i + 8 * k + j) = UInt8.ofNat (w (i + 8 * k) / 256 ^ j) := by
  induction n generalizing i dst with
  | zero => exact ⟨dst, rfl, fun _ _ => rfl, fun k _ hk => absurd hk (Nat.not_lt_zero k)⟩
  | succ n ih =>
      have hshift : ∀ k, i + 8 * (k + 1) = i + 8 + 8 * k := by
        intro k
        omega
      have hnext : ∀ k, k < n → word (i + 8 + 8 * k) = some (w (i + 8 + 8 * k)) := by
        intro k hk
        rw [← hshift]
        exact hword (k + 1) (Nat.succ_lt_succ hk)
      have hfirst := hword 0 (Nat.succ_pos n)
      rw [Nat.mul_zero, Nat.add_zero] at hfirst
      obtain ⟨d, hd, hout, hat⟩ := ih (i + 8) (Bytes.putLe dst i 8 (w i)) (by omega) hnext
      have hstore : store64 dst i (w i) = some (Bytes.putLe dst i 8 (w i)) := if_pos (by omega)
      refine ⟨d, ?_, ?_, ?_⟩
      · rw [storeLoop, hfirst]
        show (store64 dst i (w i) >>= fun dst => storeLoop word n (i + 8) dst) = some d
        rw [hstore]
        exact hd
      · intro j hj
        rw [hout j (by omega)]
        exact Bytes.putLe_outside (by omega)
      · intro k j hk hj
        cases k with
        | zero =>
            rw [hout _ (by omega), Nat.mul_zero, Nat.add_zero, Bytes.putLe, if_pos (by omega),
              Nat.add_sub_cancel_left]
        | succ k =>
            rw [hshift]
            exact hat k j (Nat.lt_of_succ_lt_succ hk) hj

/-- The masked word of `hash_copy`. -/
theorem putLe_mask (b src : Bytes) (off : Nat) {m : Nat} (hm : m ≤ 8) (i : Nat) :
    Bytes.putLe b off 8 (Bytes.le src off 8 % 256 ^ m) i =
      if off ≤ i ∧ i < off + m then src i else if off ≤ i ∧ i < off + 8 then 0 else b i := by
  rw [Bytes.le_mod src off hm, Bytes.putLe]
  by_cases hin : off ≤ i ∧ i < off + 8
  · rw [if_pos hin]
    by_cases hlow : off ≤ i ∧ i < off + m
    · have heq : off + (i - off) = i := by omega
      rw [if_pos hlow, Bytes.byte_le _ _ (by omega), heq]
    · have hlt := Bytes.le_lt src off m
      have hle : 256 ^ m ≤ 256 ^ (i - off) := Nat.pow_le_pow_right (by norm_num) (by omega)
      rw [if_neg hlow, if_pos hin, Nat.div_eq_of_lt (lt_of_lt_of_le hlt hle)]
      rfl
  · have hlow : ¬ (off ≤ i ∧ i < off + m) := by omega
    rw [if_neg hin, if_neg hlow, if_neg hin]

theorem hashCopyWords_eq (hl : hlen ≤ hash512Size) :
    hashCopyWords dst src hlen = some (hashCopy dst src hlen) := by
  unfold hash512Size at hl
  have hload : ∀ k, k < hlen / 8 → load64 src (0 + 8 * k) = some (Bytes.le src (0 + 8 * k) 8) := by
    intro k hk
    apply load64_eq
    unfold hash512Size
    omega
  obtain ⟨d, hd, hout, hat⟩ := storeLoop_eq (fun i => Bytes.le src i 8) (hlen / 8) 0 dst
    (by unfold hash512Size; omega) hload
  have hwhole : ∀ i, i < 8 * (hlen / 8) → d i = src i := by
    intro i hi
    have hi' := hat (i / 8) (i % 8) (by omega) (by omega)
    have heq : 0 + 8 * (i / 8) + i % 8 = i := by omega
    rw [Bytes.byte_le _ _ (by omega), heq] at hi'
    exact hi'
  unfold hashCopyWords
  rw [hd]
  by_cases h0 : hlen % 8 = 0
  · show (if hlen % 8 = 0 then some d else _) = _
    rw [if_pos h0]
    congr 1
    funext i
    unfold hashCopy hashWordEnd
    split
    · exact hwhole i (by omega)
    · split
      · omega
      · exact hout i (by omega)
  · show (if hlen % 8 = 0 then some d else _) = _
    have hin : hlen - hlen % 8 + 8 ≤ hash512Size := by
      unfold hash512Size
      omega
    rw [if_neg h0, load64_eq hin]
    show store64 d _ _ = _
    rw [store64, if_pos hin]
    congr 1
    funext i
    rw [putLe_mask d src _ (by omega)]
    unfold hashCopy hashWordEnd
    by_cases hi : i < hlen
    · rw [if_pos hi]
      by_cases hlast : hlen - hlen % 8 ≤ i
      · rw [if_pos (by omega)]
      · rw [if_neg (by omega), if_neg (by omega)]
        exact hwhole i (by omega)
    · rw [if_neg hi, if_neg (by omega)]
      by_cases hend : i < (hlen + 7) / 8 * 8
      · rw [if_pos (by omega), if_pos hend]
      · rw [if_neg (by omega), if_neg hend]
        exact hout i (by omega)

theorem hashClearWords_eq (hl : hlen ≤ hash512Size) : hashClearWords h hlen = some (hashClear h hlen) := by
  unfold hash512Size at hl
  obtain ⟨d, hd, hout, hat⟩ := @storeLoop_eq (fun _ => some 0) (fun _ => 0) ((hlen + 7) / 8) 0 h
    (by unfold hash512Size; omega) fun _ _ => rfl
  unfold hashClearWords
  rw [hd]
  congr 1
  funext i
  unfold hashClear hashWordEnd
  by_cases hi : i < (hlen + 7) / 8 * 8
  · have hi' := hat (i / 8) (i % 8) (by omega) (by omega)
    have heq : 0 + 8 * (i / 8) + i % 8 = i := by omega
    rw [heq, Nat.zero_div] at hi'
    rw [if_pos hi, hi']
    rfl
  · rw [if_neg hi]
    exact hout i (by omega)

theorem hashUnparse_isSome : (hashUnparse h hlen).isSome = true ↔ hlen ≤ hash512Size := by
  have hall : ∀ l : List Nat, (l.mapM (load8 h)).isSome = true ↔ ∀ i ∈ l, i < hash512Size := by
    intro l
    induction l with
    | nil => simp
    | cons i l ih =>
        rw [List.mapM_cons, List.forall_mem_cons, ← ih]
        by_cases hi : i < hash512Size
        · cases l.mapM (load8 h) <;> simp [load8, hi]
        · simp [load8, hi]
  rw [hashUnparse, hall]
  constructor
  · intro hin
    by_contra hlt
    have hlt' := Nat.not_le.1 hlt
    exact absurd (hin hash512Size (List.mem_range.2 hlt')) (lt_irrefl _)
  · intro hle i hi
    exact lt_of_lt_of_le (List.mem_range.1 hi) hle

end Inside

/-! ## Behind the digest -/

/-- A loop that stores more words than a digest has leaves it. -/
theorem storeLoop_none {word : Nat → Option Nat} (n i : Nat) (dst : Hash512) (hi : i ≤ hash512Size)
    (hout : hash512Size < i + 8 * n) : storeLoop word n i dst = none := by
  induction n generalizing i dst with
  | zero => omega
  | succ n ih =>
      rw [storeLoop]
      cases word i with
      | none => rfl
      | some v =>
          show (store64 dst i v >>= fun dst => storeLoop word n (i + 8) dst) = none
          by_cases hin : i + 8 ≤ hash512Size
          · rw [store64, if_pos hin]
            exact ih (i + 8) _ hin (by omega)
          · rw [store64, if_neg hin]
            rfl

theorem hashCopyWords_none {dst src : Hash512} {hlen : Nat} (hl : hash512Size < hlen) :
    hashCopyWords dst src hlen = none := by
  unfold hashCopyWords
  by_cases hwhole : hash512Size < 8 * (hlen / 8)
  · rw [storeLoop_none _ 0 dst (Nat.zero_le _) (by omega)]
    rfl
  · -- the digest ends in front of the masked word
    have hrest : hlen % 8 ≠ 0 := by omega
    have hload : load64 src (hlen - hlen % 8) = none := if_neg (by unfold hash512Size at *; omega)
    cases storeLoop (load64 src) (hlen / 8) 0 dst with
    | none => rfl
    | some d =>
        show (if hlen % 8 = 0 then some d else _) = none
        rw [if_neg hrest, hload]
        rfl

end Minipython.Shfs
