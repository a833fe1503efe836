/-
# Minipython.Shfs.HashString — digests as strings (hash.h, shfs_tools.c, tools_common.h)

`hash_parse` reads two digits a turn and advances its 8-bit counter inside the loop body; `hash_unparse` prints
two digits a turn, each time with a terminator behind them. Here both are the loops of the source over memory,
with their counters. Up to 64 bytes the strings parsed are the hexadecimal ones of the right length
(`hashParse_spec`), and printing is the inverse of parsing up to the case of the letters.

The tools and the unikernel have the same text of `hash_unparse`.

`HexDigest` says what is accepted: as many hexadecimal digits as two for each byte, and a terminator behind
them. Anything else is refused, whatever stands behind it in memory. The 8-bit counters do not come around
for up to 64 bytes (`parse_counters`), so `digest_strings` holds for all digests that a label admits; one of
no byte is no digest. The memory that a digest is parsed into, or printed to, is arbitrary before the call.
-/
import Minipython.Shfs.Fio
import Mathlib.Data.List.GetD

namespace Minipython.Shfs.HashString

open Minipython.Lib
open Minipython.Shfs

/-! ## The functions -/

/-- The loop of `hash_parse`: the counter behind the digits, or nothing at an unknown character. A loop that
is not through after the given turns has no result. -/
def hashParseLoop (inp : Bytes) (strlen : UInt8) : Nat → UInt8 → Hash512 → Option (Option UInt8 × Hash512)
  | 0, _, _ => none
  | n + 1, i, h =>
      if i < strlen then
        match hexDigit (inp i.toNat) with
        | none => some (none, h)
        | some nu =>
            let i := i + 1
            match hexDigit (inp i.toNat) with
            | none => some (none, h)
            | some nl =>
                hashParseLoop inp strlen n (i + 1)
                  (Function.update h (i >>> 1).toNat ((nu <<< 4) ||| nl))
      else some (some i, h)

/-- `hash_parse`, with the digest that it leaves. -/
def hashParse (inp : Bytes) (h : Hash512) (hlen : UInt8) : Option (Int × Hash512) := do
  let strlen := hlen * 2
  match ← hashParseLoop inp strlen 256 0 h with
  | (none, h) => return (-1, h)
  | (some i, h) => if inp i.toNat ≠ 0 then return (-1, h) else return (0, h)

/-- The digit of a value below 16 in `%x`. -/
def hexChar (n : UInt8) : UInt8 := if n < 10 then 48 + n else 87 + n

/-- `snprintf(out + off, 3, "%02x", b)`. -/
def snprintfByte (out : Bytes) (off : Nat) (b : UInt8) : Bytes := fun j =>
  if j = off then hexChar (b >>> 4)
  else if j = off + 1 then hexChar (b &&& 15)
  else if j = off + 2 then 0
  else out j

/-- The loop of `hash_unparse`. -/
def hashUnparseLoop (h : Hash512) (hlen : UInt8) : Nat → UInt8 → Bytes → Option Bytes
  | 0, _, _ => none
  | n + 1, i, out =>
      if i < hlen then hashUnparseLoop h hlen n (i + 1) (snprintfByte out (2 * i.toNat) (h i.toNat))
      else some out

/-- `hash_unparse`. -/
def hashUnparse (h : Hash512) (hlen : UInt8) (out : Bytes) : Option Bytes :=
  hashUnparseLoop h hlen 256 0 out

/-! ## Digits -/

/-- A digit, or a letter from a to f in either case. -/
def IsHex (c : UInt8) : Prop := 48 ≤ c ∧ c ≤ 57 ∨ 97 ≤ c ∧ c ≤ 102 ∨ 65 ≤ c ∧ c ≤ 70

/-- `tolower`. -/
def toLower (c : UInt8) : UInt8 := if 65 ≤ c ∧ c ≤ 90 then c + 32 else c

/-- The string at `inp` is `2 * hlen` hexadecimal digits with the terminator behind them. -/
def HexDigest (inp : Bytes) (hlen : Nat) : Prop := (∀ i < 2 * hlen, IsHex (inp i)) ∧ inp (2 * hlen) = 0

section Digits

variable {c u l v : UInt8}

theorem isHex_iff : IsHex c ↔ ∃ v, hexDigit c = some v := by
  unfold IsHex hexDigit
  constructor
  · rintro (h | h | h)
    · exact ⟨_, if_pos h⟩
    · by_cases h0 : 48 ≤ c ∧ c ≤ 57
      · exact ⟨_, if_pos h0⟩
      · exact ⟨_, by rw [if_neg h0, if_pos h]⟩
    · by_cases h0 : 48 ≤ c ∧ c ≤ 57
      · exact ⟨_, if_pos h0⟩
      · by_cases h1 : 97 ≤ c ∧ c ≤ 102
        · exact ⟨_, by rw [if_neg h0, if_pos h1]⟩
        · exact ⟨_, by rw [if_neg h0, if_neg h1, if_pos h]⟩
  · rintro ⟨v, hv⟩
    split at hv
    · exact .inl ‹_›
    · split at hv
      · exact .inr (.inl ‹_›)
      · split at hv
        · exact .inr (.inr ‹_›)
        · cases hv

theorem forall_uint8 {P : UInt8 → Prop} (h : ∀ n < 256, P (UInt8.ofNat n)) (c : UInt8) : P c := by
  have hc := h c.toNat c.toNat_lt
  rwa [UInt8.ofNat_toNat] at hc

/-- The value of a digit is printed as the digit in lower case. -/
theorem hexChar_hexDigit : ∀ c, ∀ v ∈ hexDigit c, v < 16 ∧ hexChar v = toLower c := by
  have hall : ∀ c, (hexDigit c).all (fun v => decide (v < 16 ∧ hexChar v = toLower c)) = true := by
    apply forall_uint8
    decide +kernel
  intro c v hv
  exact of_decide_eq_true ((Option.all_eq_true _ _).1 (hall c) v hv)

/-- A printed digit is read as its value. -/
theorem hexDigit_hexChar : ∀ v < 16, hexDigit (hexChar v) = some v := by
  apply forall_uint8
  decide +kernel

/-- A byte is made of its nibbles. -/
theorem nibbles (b : UInt8) : b >>> 4 < 16 ∧ b &&& 15 < 16 ∧ (b >>> 4) <<< 4 ||| (b &&& 15) = b := by
  revert b
  apply forall_uint8
  decide +kernel

/-- The nibbles of a byte that was put together. -/
theorem nibbles_or (hu : u < 16) (hl : l < 16) :
    ((u <<< 4) ||| l) >>> 4 = u ∧ ((u <<< 4) ||| l) &&& 15 = l := by
  have hall : ∀ m < 16, ∀ n < 16,
      ((UInt8.ofNat m <<< 4) ||| UInt8.ofNat n) >>> 4 = UInt8.ofNat m ∧
        ((UInt8.ofNat m <<< 4) ||| UInt8.ofNat n) &&& 15 = UInt8.ofNat n := by
    decide +kernel
  have huv := hall u.toNat (UInt8.lt_iff_toNat_lt.1 hu) l.toNat (UInt8.lt_iff_toNat_lt.1 hl)
  rwa [UInt8.ofNat_toNat, UInt8.ofNat_toNat] at huv

end Digits

/-! ## The parser -/

section Parse

variable {inp : Bytes} {h h' : Hash512} {hlen : UInt8}

/-- The byte that two digits stand for. -/
def pairValue (inp : Bytes) (i : Nat) : UInt8 :=
  ((hexDigit (inp (2 * i))).getD 0 <<< 4) ||| (hexDigit (inp (2 * i + 1))).getD 0

/-- The counters of one turn. -/
theorem parse_counters {k : Nat} (hk : 2 * k + 1 < 256) :
    (UInt8.ofNat (2 * k)).toNat = 2 * k ∧ (UInt8.ofNat (2 * k) + 1).toNat = 2 * k + 1 ∧
      ((UInt8.ofNat (2 * k) + 1) >>> 1).toNat = k ∧
      UInt8.ofNat (2 * k) + 1 + 1 = UInt8.ofNat (2 * (k + 1)) := by
  refine ⟨?_, ?_, ?_, ?_⟩
  · rw [UInt8.toNat_ofNat']
    omega
  · simp only [UInt8.toNat_add, UInt8.toNat_ofNat', UInt8.reduceToNat]
    omega
  · simp only [UInt8.toNat_shiftRight, UInt8.toNat_add, UInt8.toNat_ofNat', UInt8.reduceToNat,
      Nat.shiftRight_eq_div_pow, Nat.reduceMod, Nat.pow_one]
    omega
  · apply UInt8.toNat_inj.1
    simp only [UInt8.toNat_add, UInt8.toNat_ofNat', UInt8.reduceToNat]
    omega

/-- The loop from the digits of the byte `k` on, with `m` bytes left. -/
theorem hashParseLoop_spec (m k n : Nat) (h : Hash512) (hk : k + m ≤ 64) (hn : m < n) :
    ((∀ i, k ≤ i → i < k + m → IsHex (inp (2 * i)) ∧ IsHex (inp (2 * i + 1))) ∧
      ∃ h', hashParseLoop inp (UInt8.ofNat (2 * (k + m))) n (UInt8.ofNat (2 * k)) h =
          some (some (UInt8.ofNat (2 * (k + m))), h') ∧
        ∀ i, h' i = if k ≤ i ∧ i < k + m then pairValue inp i else h i) ∨
    (¬ (∀ i, k ≤ i → i < k + m → IsHex (inp (2 * i)) ∧ IsHex (inp (2 * i + 1))) ∧
      ∃ h', hashParseLoop inp (UInt8.ofNat (2 * (k + m))) n (UInt8.ofNat (2 * k)) h =
          some (none, h')) := by
  induction m generalizing k n h with
  | zero =>
      rcases n with _ | n
      · omega
      · refine .inl ⟨fun i h1 h2 => by omega, h, ?_, fun i => ?_⟩
        · rw [hashParseLoop, Nat.add_zero, if_neg (UInt8.lt_irrefl _)]
        · rw [if_neg (by omega)]
  | succ m ih =>
      rcases n with _ | n
      · omega
      rcases parse_counters (k := k) (by omega) with ⟨h0, h1, h2, h3⟩
      have hlt : UInt8.ofNat (2 * k) < UInt8.ofNat (2 * (k + (m + 1))) := by
        rw [UInt8.lt_iff_toNat_lt, UInt8.toNat_ofNat', UInt8.toNat_ofNat']
        omega
      rw [hashParseLoop, if_pos hlt, h0]
      -- the turn ends the loop at the first of its two characters that is no digit
      cases hu : hexDigit (inp (2 * k)) with
      | none =>
          refine .inr ⟨fun hall => ?_, h, rfl⟩
          rcases isHex_iff.1 (hall k (Nat.le_refl k) (by omega)).1 with ⟨v, hv⟩
          rw [hu] at hv
          cases hv
      | some nu =>
          simp only [h1]
          cases hl : hexDigit (inp (2 * k + 1)) with
          | none =>
              refine .inr ⟨fun hall => ?_, h, rfl⟩
              rcases isHex_iff.1 (hall k (Nat.le_refl k) (by omega)).2 with ⟨v, hv⟩
              rw [hl] at hv
              cases hv
          | some nl =>
              have hpair : (nu <<< 4) ||| nl = pairValue inp k := by
                rw [pairValue, hu, hl]
                rfl
              have hend : k + (m + 1) = k + 1 + m := by omega
              simp only [h2, h3, hpair, hend]
              -- what is left to check does not depend on the digits that were read
              have hsplit : (∀ i, k ≤ i → i < k + 1 + m → IsHex (inp (2 * i)) ∧ IsHex (inp (2 * i + 1))) ↔
                  ∀ i, k + 1 ≤ i → i < k + 1 + m → IsHex (inp (2 * i)) ∧ IsHex (inp (2 * i + 1)) := by
                refine ⟨fun hall i hi => hall i (by omega), fun hall i hi hi' => ?_⟩
                by_cases hik : i = k
                · exact hik ▸ ⟨isHex_iff.2 ⟨nu, hu⟩, isHex_iff.2 ⟨nl, hl⟩⟩
                · exact hall i (by omega) hi'
              rw [hsplit]
              rcases ih (k + 1) n (Function.update h k (pairValue inp k)) (by omega) (by omega) with
                ⟨hall, h', hloop, hat⟩ | ⟨hno, h', hloop⟩
              · refine .inl ⟨hall, h', hloop, fun i => ?_⟩
                rw [hat i]
                by_cases hik : i = k
                · subst hik
                  rw [if_neg (by omega), if_pos (by omega), Function.update_self]
                · rw [Function.update_of_ne hik]
                  exact if_congr (by omega) rfl rfl
              · exact .inr ⟨hno, h', hloop⟩

/-- Digits in pairs. -/
theorem hex_pairs (inp : Bytes) (n : Nat) :
    (∀ i, 0 ≤ i → i < 0 + n → IsHex (inp (2 * i)) ∧ IsHex (inp (2 * i + 1))) ↔
      ∀ i < 2 * n, IsHex (inp i) := by
  constructor
  · intro hall i hi
    have hpair := hall (i / 2) (Nat.zero_le _) (by omega)
    rcases Nat.mod_two_eq_zero_or_one i with h0 | h1
    · have heq : 2 * (i / 2) = i := by omega
      exact heq ▸ hpair.1
    · have heq : 2 * (i / 2) + 1 = i := by omega
      exact heq ▸ hpair.2
  · intro hall i _ hi
    exact ⟨hall _ (by omega), hall _ (by omega)⟩

/-- `hash_parse` accepts the hexadecimal strings of the length, and stores the bytes that the digits stand
for. -/
theorem hashParse_spec (inp : Bytes) (h : Hash512) (hl : hlen ≤ 64) :
    (HexDigest inp hlen.toNat ∧ ∃ h', hashParse inp h hlen = some (0, h') ∧
      ∀ i, h' i = if i < hlen.toNat then pairValue inp i else h i) ∨
    (¬ HexDigest inp hlen.toNat ∧ ∃ h', hashParse inp h hlen = some (-1, h')) := by
  have hl' : hlen.toNat ≤ 64 := UInt8.le_iff_toNat_le.1 hl
  have hstrlen : hlen * 2 = UInt8.ofNat (2 * (0 + hlen.toNat)) := by
    apply UInt8.toNat_inj.1
    simp only [UInt8.toNat_mul, UInt8.toNat_ofNat', UInt8.reduceToNat]
    omega
  have hback : (UInt8.ofNat (2 * (0 + hlen.toNat))).toNat = 2 * hlen.toNat := by
    rw [UInt8.toNat_ofNat']
    omega
  unfold HexDigest hashParse
  simp only [hstrlen]
  rcases hashParseLoop_spec hlen.toNat 0 256 h (by omega) (by omega) with
    ⟨hall, h', hloop, hat⟩ | ⟨hno, h', hloop⟩
  · have hloop : hashParseLoop inp (UInt8.ofNat (2 * (0 + hlen.toNat))) 256 0 h = _ := hloop
    have hall := (hex_pairs inp _).1 hall
    rw [hloop]
    show _ ∧ (∃ h'', (if inp (UInt8.ofNat (2 * (0 + hlen.toNat))).toNat ≠ 0 then some ((-1 : Int), h')
      else some (0, h')) = _ ∧ _) ∨ _ ∧ ∃ h'',
      (if inp (UInt8.ofNat (2 * (0 + hlen.toNat))).toNat ≠ 0 then some ((-1 : Int), h')
      else some (0, h')) = _
    rw [hback]
    -- behind the digits the string has to end
    by_cases hend : inp (2 * hlen.toNat) = 0
    · refine .inl ⟨⟨hall, hend⟩, h', if_neg (not_not.2 hend), fun i => ?_⟩
      rw [hat i]
      exact if_congr (by omega) rfl rfl
    · exact .inr ⟨fun hd => hend hd.2, h', if_pos hend⟩
  · have hloop : hashParseLoop inp (UInt8.ofNat (2 * (0 + hlen.toNat))) 256 0 h = _ := hloop
    rw [hloop]
    exact .inr ⟨fun hd => hno ((hex_pairs inp _).2 hd.1), h', rfl⟩

end Parse

/-! ## The printer -/

section Unparse

variable {h : Hash512} {hlen : UInt8}

/-- The loop from the byte `k` on, with `m` bytes left. -/
theorem hashUnparseLoop_spec (m k n : Nat) (out : Bytes) (hk : k + m < 256) (hn : m < n) :
    ∃ out', hashUnparseLoop h (UInt8.ofNat (k + m)) n (UInt8.ofNat k) out = some out' ∧
      (∀ j, j < 2 * k → out' j = out j) ∧
      (∀ i, k ≤ i → i < k + m →
        out' (2 * i) = hexChar (h i >>> 4) ∧ out' (2 * i + 1) = hexChar (h i &&& 15)) ∧
      out' (2 * (k + m)) = if m = 0 then out (2 * k) else 0 := by
  induction m generalizing k n out with
  | zero =>
      rcases n with _ | n
      · omega
      · refine ⟨out, ?_, fun _ _ => rfl, fun i h1 h2 => by omega, rfl⟩
        rw [hashUnparseLoop, Nat.add_zero, if_neg (UInt8.lt_irrefl _)]
  | succ m ih =>
      rcases n with _ | n
      · omega
      have hto : (UInt8.ofNat k).toNat = k := by
        rw [UInt8.toNat_ofNat']
        omega
      have hlt : UInt8.ofNat k < UInt8.ofNat (k + (m + 1)) := by
        rw [UInt8.lt_iff_toNat_lt, UInt8.toNat_ofNat', UInt8.toNat_ofNat']
        omega
      have hnext : UInt8.ofNat k + 1 = UInt8.ofNat (k + 1) := by
        apply UInt8.toNat_inj.1
        simp only [UInt8.toNat_add, UInt8.toNat_ofNat', UInt8.reduceToNat]
        omega
      have hend : k + (m + 1) = k + 1 + m := by omega
      rw [hashUnparseLoop, if_pos hlt, hto, hnext, hend]
      rcases ih (k + 1) n (snprintfByte out (2 * k) (h k)) (by omega) (by omega) with
        ⟨out', hloop, hlow, hat, hterm⟩
      refine ⟨out', hloop, ?_, ?_, ?_⟩
      · intro j hj
        rw [hlow j (by omega), snprintfByte, if_neg (by omega), if_neg (by omega), if_neg (by omega)]
      · intro i hi hi'
        by_cases hik : i = k
        · subst hik
          rw [hlow _ (by omega), hlow _ (by omega), snprintfByte, snprintfByte, if_pos rfl,
            if_neg (by omega), if_pos rfl]
          exact ⟨rfl, rfl⟩
        · exact hat i (by omega) hi'
      · rw [hterm, if_neg (Nat.succ_ne_zero m)]
        split
        · -- the last byte has put the terminator behind its digits
          rw [snprintfByte, if_neg (by omega), if_neg (by omega), if_pos (by omega)]
        · rfl

/-- What `hash_unparse` prints. -/
theorem hashUnparse_spec (h : Hash512) (out : Bytes) (hpos : 1 ≤ hlen) :
    ∃ out', hashUnparse h hlen out = some out' ∧
      (∀ i < hlen.toNat,
        out' (2 * i) = hexChar (h i >>> 4) ∧ out' (2 * i + 1) = hexChar (h i &&& 15)) ∧
      out' (2 * hlen.toNat) = 0 := by
  have hpos' : 1 ≤ hlen.toNat := UInt8.le_iff_toNat_le.1 hpos
  have hlt : hlen.toNat < 256 := hlen.toNat_lt
  rcases hashUnparseLoop_spec (h := h) hlen.toNat 0 256 out (by omega) (by omega) with
    ⟨out', hloop, -, hat, hterm⟩
  rw [Nat.zero_add, UInt8.ofNat_toNat] at hloop
  rw [Nat.zero_add, if_neg (by omega)] at hterm
  exact ⟨out', hloop, fun i hi => hat i (Nat.zero_le i) (by omega), hterm⟩

end Unparse

/-! ## The parser on character lists -/

/-- A string given by its characters, in memory. -/
def stringMem (s : List UInt8) : Bytes := fun i => s.getD i 0

/-- The parser of a path, over a list of characters, goes by the same digits. -/
theorem hashParseBytes_eq_some (n : Nat) (s bytes : List UInt8) :
    hashParseBytes n s = some bytes ↔ s.length = 2 * n ∧ (∀ i < 2 * n, IsHex (stringMem s i)) ∧
      bytes = (List.range n).map (pairValue (stringMem s)) := by
  induction n generalizing s bytes with
  | zero =>
      rcases s with _ | ⟨c, s⟩
      · simp [hashParseBytes, eq_comm]
      · simp [hashParseBytes]
  | succ n ih =>
      rcases s with _ | ⟨u, _ | ⟨l, rest⟩⟩
      · simp [hashParseBytes]
      · simp only [hashParseBytes, List.length_cons, List.length_nil]
        exact ⟨fun hh => (by cases hh), fun hh => by omega⟩
      · have hshift : ∀ i, stringMem (u :: l :: rest) (i + 2) = stringMem rest i := fun i => rfl
        have hpair : ∀ i, pairValue (stringMem (u :: l :: rest)) (i + 1) = pairValue (stringMem rest) i :=
          fun i => rfl
        have hhex : (∀ i < 2 * (n + 1), IsHex (stringMem (u :: l :: rest) i)) ↔
            IsHex u ∧ IsHex l ∧ ∀ i < 2 * n, IsHex (stringMem rest i) := by
          constructor
          · intro hall
            refine ⟨hall 0 (by omega), hall 1 (by omega), fun i hi => ?_⟩
            rw [← hshift]
            exact hall (i + 2) (by omega)
          · rintro ⟨hu, hl, hrest⟩ (_ | _ | i) hi
            · exact hu
            · exact hl
            · exact hrest i (by omega)
        have hlen : (u :: l :: rest).length = 2 * (n + 1) ↔ rest.length = 2 * n := by
          simp only [List.length_cons]
          omega
        have hmap : (List.range (n + 1)).map (pairValue (stringMem (u :: l :: rest))) =
            pairValue (stringMem (u :: l :: rest)) 0 ::
              (List.range n).map (pairValue (stringMem rest)) := by
          rw [List.range_succ_eq_map, List.map_cons, List.map_map]
          rfl
        rw [hashParseBytes, hhex, hlen, hmap, isHex_iff, isHex_iff]
        cases hu : hexDigit u with
        | none => simp
        | some nu =>
            cases hl : hexDigit l with
            | none => simp
            | some nl =>
                have hhead : pairValue (stringMem (u :: l :: rest)) 0 = (nu <<< 4) ||| nl := by
                  show (((hexDigit u).getD 0 <<< 4) ||| (hexDigit l).getD 0) = _
                  rw [hu, hl]
                  rfl
                rw [hhead]
                show ((hashParseBytes n rest).bind fun bytes => some (((nu <<< 4) ||| nl) :: bytes)) = _ ↔ _
                rw [Option.bind_eq_some_iff]
                constructor
                · rintro ⟨tail, htail, hb⟩
                  rcases (ih rest tail).1 htail with ⟨hlen, hall, rfl⟩
                  exact ⟨hlen, ⟨⟨nu, rfl⟩, ⟨nl, rfl⟩, hall⟩, (Option.some.inj hb).symm⟩
                · rintro ⟨hlen, ⟨-, -, hall⟩, rfl⟩
                  exact ⟨_, (ih rest _).2 ⟨hlen, hall, rfl⟩, rfl⟩

/-- `hash_parse` on a string is the parser that opens a path. -/
theorem hashParse_string {hlen : UInt8} {s : List UInt8} (hs : 0 ∉ s) (h : Hash512) (hl : hlen ≤ 64) :
    (∃ d h', Shfs.hashParse s hlen.toNat = some d ∧ hashParse (stringMem s) h hlen = some (0, h') ∧
      SameHash hlen.toNat h' d) ∨
    (Shfs.hashParse s hlen.toNat = none ∧ ∃ h', hashParse (stringMem s) h hlen = some (-1, h')) := by
  have hl' : hlen.toNat ≤ 64 := UInt8.le_iff_toNat_le.1 hl
  have hcount : hlen.toNat * 2 % 256 / 2 = hlen.toNat := by omega
  have hstring : HexDigest (stringMem s) hlen.toNat ↔
      s.length = 2 * hlen.toNat ∧ ∀ i < 2 * hlen.toNat, IsHex (stringMem s i) := by
    constructor
    · rintro ⟨hall, hend⟩
      refine ⟨?_, hall⟩
      -- the terminator is behind the characters, and no digit is
      have hle : s.length ≤ 2 * hlen.toNat := by
        by_contra hlt
        have hget : stringMem s (2 * hlen.toNat) = s.get ⟨2 * hlen.toNat, by omega⟩ :=
          List.getD_eq_getElem _ _ _
        rw [hend] at hget
        exact hs (hget ▸ List.getElem_mem _)
      by_contra hne
      have hbehind : stringMem s s.length = 0 := List.getD_eq_default _ _ (Nat.le_refl _)
      have hhex := hall s.length (by omega)
      rw [hbehind] at hhex
      revert hhex
      unfold IsHex
      decide
    · rintro ⟨hchars, hall⟩
      exact ⟨hall, List.getD_eq_default _ _ (by omega)⟩
  unfold Shfs.hashParse
  rw [hcount]
  rcases hashParse_spec (stringMem s) h hl with ⟨hd, h', hparse, hat⟩ | ⟨hd, h', hparse⟩
  · rcases hstring.1 hd with ⟨hchars, hall⟩
    have hbytes := (hashParseBytes_eq_some hlen.toNat s _).2 ⟨hchars, hall, rfl⟩
    refine .inl ⟨_, h', by rw [hbytes]; rfl, hparse, fun i hi => ?_⟩
    have hin : i < ((List.range hlen.toNat).map (pairValue (stringMem s))).length := by simpa using hi
    rw [hat i, if_pos hi]
    show _ = ((List.range hlen.toNat).map (pairValue (stringMem s))).getD i 0
    rw [List.getD_eq_getElem _ _ hin, List.getElem_map, List.getElem_range]
  · refine .inr ⟨?_, h', hparse⟩
    cases hbytes : hashParseBytes hlen.toNat s with
    | none => rfl
    | some bytes =>
        rcases (hashParseBytes_eq_some _ _ _).1 hbytes with ⟨hchars, hall, -⟩
        exact absurd (hstring.2 ⟨hchars, hall⟩) hd

/-! ## Round trips -/

section RoundTrip

variable {inp out : Bytes} {h h' d : Hash512} {hlen : UInt8}

/-- A printed digest is a hexadecimal string, and stands for the digest. -/
theorem printed_digest (hat : ∀ i < hlen.toNat,
      out (2 * i) = hexChar (d i >>> 4) ∧ out (2 * i + 1) = hexChar (d i &&& 15))
    (hterm : out (2 * hlen.toNat) = 0) :
    HexDigest out hlen.toNat ∧ ∀ i < hlen.toNat, pairValue out i = d i := by
  have hdigits : ∀ i < hlen.toNat, hexDigit (out (2 * i)) = some (d i >>> 4) ∧
      hexDigit (out (2 * i + 1)) = some (d i &&& 15) := by
    intro i hi
    rcases nibbles (d i) with ⟨hu, hl, -⟩
    rw [(hat i hi).1, (hat i hi).2]
    exact ⟨hexDigit_hexChar _ hu, hexDigit_hexChar _ hl⟩
  refine ⟨⟨(hex_pairs out _).1 fun i _ hi => ?_, hterm⟩, fun i hi => ?_⟩
  · rcases hdigits i (by omega) with ⟨hu, hl⟩
    exact ⟨isHex_iff.2 ⟨_, hu⟩, isHex_iff.2 ⟨_, hl⟩⟩
  · rw [pairValue, (hdigits i hi).1, (hdigits i hi).2]
    exact (nibbles (d i)).2.2

/-- The digits of a byte that two digits stand for are these in lower case. -/
theorem hexChar_pairValue {i : Nat} (hu : IsHex (inp (2 * i))) (hl : IsHex (inp (2 * i + 1))) :
    hexChar (pairValue inp i >>> 4) = toLower (inp (2 * i)) ∧
      hexChar (pairValue inp i &&& 15) = toLower (inp (2 * i + 1)) := by
  rcases isHex_iff.1 hu with ⟨nu, hnu⟩
  rcases isHex_iff.1 hl with ⟨nl, hnl⟩
  rcases hexChar_hexDigit _ nu hnu with ⟨hu16, hchar_u⟩
  rcases hexChar_hexDigit _ nl hnl with ⟨hl16, hchar_l⟩
  rcases nibbles_or hu16 hl16 with ⟨hhigh, hlow⟩
  have hpair : pairValue inp i = (nu <<< 4) ||| nl := by
    rw [pairValue, hnu, hnl]
    rfl
  rw [hpair, hhigh, hlow]
  exact ⟨hchar_u, hchar_l⟩

/-- Digest strings: `hash_parse` accepts exactly the hexadecimal strings of the length, it reads back what
`hash_unparse` prints, and a string that it accepts is printed in lower case. This holds for every number of
bytes from 1 to 64, whatever stood in memory before. -/
theorem digest_strings (hlen : UInt8) (hpos : 1 ≤ hlen) (hl : hlen ≤ 64) :
    (∀ inp h, ∃ rc h', hashParse inp h hlen = some (rc, h') ∧ (rc = 0 ↔ HexDigest inp hlen.toNat)) ∧
    (∀ d out h, ∃ out' h', hashUnparse d hlen out = some out' ∧ hashParse out' h hlen = some (0, h') ∧
      SameHash hlen.toNat h' d) ∧
    ∀ inp h h' out, hashParse inp h hlen = some (0, h') →
      ∃ out', hashUnparse h' hlen out = some out' ∧ ∀ j ≤ 2 * hlen.toNat, out' j = toLower (inp j) := by
  have hne : (-1 : Int) ≠ 0 := by decide
  refine ⟨fun inp h => ?_, fun d out h => ?_, fun inp h h' out hparse => ?_⟩
  · rcases hashParse_spec inp h hl with ⟨hd, h', hparse, -⟩ | ⟨hd, h', hparse⟩
    · exact ⟨0, h', hparse, fun _ => hd, fun _ => rfl⟩
    · exact ⟨-1, h', hparse, fun h0 => absurd h0 hne, fun hd' => absurd hd' hd⟩
  · rcases hashUnparse_spec d out hpos with ⟨out', hprint, hat, hterm⟩
    rcases printed_digest hat hterm with ⟨hd, hvalue⟩
    rcases hashParse_spec out' h hl with ⟨-, h', hparse, hstored⟩ | ⟨hno, -⟩
    · refine ⟨out', h', hprint, hparse, fun i hi => ?_⟩
      rw [hstored i, if_pos hi, hvalue i hi]
    · exact absurd hd hno
  · rcases hashParse_spec inp h hl with ⟨hd, h'', hparse', hstored⟩ | ⟨-, h'', hparse'⟩
    · obtain ⟨-, rfl⟩ := Prod.mk.inj (Option.some.inj (hparse'.symm.trans hparse))
      rcases hashUnparse_spec h'' out hpos with ⟨out', hprint, hat, hterm⟩
      refine ⟨out', hprint, fun j hj => ?_⟩
      by_cases hend : j = 2 * hlen.toNat
      · rw [hend, hterm, hd.2]
        rfl
      · -- the digit is the upper or the lower one of its byte
        have hi : j / 2 < hlen.toNat := by omega
        have hpair := (hex_pairs inp hlen.toNat).2 hd.1 (j / 2) (Nat.zero_le _) (by omega)
        rcases hexChar_pairValue hpair.1 hpair.2 with ⟨hu, hlow⟩
        rcases hat (j / 2) hi with ⟨hout_u, hout_l⟩
        rw [hstored, if_pos hi] at hout_u hout_l
        rcases Nat.mod_two_eq_zero_or_one j with h0 | h1
        · have heq : 2 * (j / 2) = j := by omega
          rw [heq] at hout_u hu
          rw [hout_u, hu]
        · have heq : 2 * (j / 2) + 1 = j := by omega
          rw [heq] at hout_l hlow
          rw [hout_l, hlow]
    · have hrc := (Prod.mk.inj (Option.some.inj (hparse'.symm.trans hparse))).1
      exact absurd hrc hne

/-- A digest of one byte. -/
theorem digest_strings_one :
    (∀ inp h, ∃ rc h', hashParse inp h 1 = some (rc, h') ∧ (rc = 0 ↔ HexDigest inp 1)) ∧
    (∀ d out h, ∃ out' h', hashUnparse d 1 out = some out' ∧ hashParse out' h 1 = some (0, h') ∧
      SameHash 1 h' d) ∧
    ∀ inp h h' out, hashParse inp h 1 = some (0, h') →
      ∃ out', hashUnparse h' 1 out = some out' ∧ ∀ j ≤ 2 * 1, out' j = toLower (inp j) :=
  digest_strings 1 (by decide) (by decide)

end RoundTrip

end Minipython.Shfs.HashString
