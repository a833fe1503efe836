/-
# Minipython.Minios.Hexdump — one line of a hexdump (hexdump.c)

`_hdline2buf` prints a line piece by piece with `snprintf`, which answers how long a piece is, whether it
fits or not. An `ASSERT` in front checks the size of the buffer, with one formula for lines with a column of
characters and one for lines without. The two stand in each other's place: the longer line has the shorter
formula.

`Printed` adds up the pieces of a loop; the position behind a line is then a sum over its loops.

`snprintf` is handed the room that is left, as an unsigned number. Behind the end of the buffer that number
wraps to almost `2 ^ 64`, so the pieces go on being stored. `hdline_fits` therefore compares the sum of all
pieces, `hdNeeded`, with the size of the buffer: the line stays inside exactly if the sum does. The group
size divides the row size, as those of the header's list do, and `hdAssert` is the assert as the code
computes it, in 64 bits.

`hdline_overflows` is a line of the longest row in the buffer that `hexdump` has for it: 512 bytes pass the
assert and 767 are written.
-/
import Mathlib.Algebra.Order.Group.Nat
import Minipython.Lib.Bytes
import Minipython.Lib.Word
import Minipython.Shfs.Defs
import Minipython.Shfs.HashString

namespace Minipython.Minios

open Minipython.Lib
open Minipython.Lib.Bytes (blit)
open Minipython.Shfs (Fault)
open Minipython.Shfs.HashString (hexChar stringMem)

/-! ## The code -/

/-- A line in the making: the memory from `trglinebuf` on, the position, and the positions so far. The
position is a number here; as long as it is in the buffer it is one of `size_t`. -/
structure HdLine where
  mem : Bytes
  pos : Nat
  trace : List Nat

/-- `trglinebufpos += snprintf(trglinebuf + trglinebufpos, trglinebuflen - trglinebufpos, ..)`: as much of
the text as the size allows, and the terminator. The size is a `size_t` and may wrap. -/
def hdPrint (buflen : UInt64) (l : HdLine) (text : List UInt8) : HdLine :=
  let size := (buflen - UInt64.ofNat l.pos).toNat
  let n := min text.length (size - 1)
  { mem := if size = 0 then l.mem else blit l.mem l.pos (stringMem (text.take n)) (n + 1)
    pos := l.pos + text.length
    trace := l.trace ++ [l.pos + text.length] }

/-- The arguments of `_hdline2buf` but for its buffer. -/
structure HdArgs where
  buf : Bytes
  len : UInt64
  rowlen : UInt64
  groupsize : UInt64
  showAsciiColumn : Bool
  trglinebuflen : UInt64

/-- The text of a byte: `%02x`. -/
def hexText (b : UInt8) : List UInt8 := [hexChar (b >>> 4), hexChar (b &&& 15)]

/-- The text of a byte in the column of characters, a dot for what cannot be printed. -/
def asciiText (ch : UInt8) : List UInt8 := [if 32 ≤ ch ∧ ch ≤ 126 then ch else 46]

/-- The space in front of a byte. -/
def byteSep (group byte : Nat) : List UInt8 := if group ≠ 0 ∨ byte ≠ 0 then [32] else []

section Loops

variable (a : HdArgs) (len : Nat)

/-- The inner loop over the bytes of a group, with `turns` left; `false` is the jump to `eol`. -/
def hexBytes (group : Nat) : Nat → Nat → HdLine → HdLine × Bool
  | 0, _, l => (l, true)
  | turns + 1, byte, l =>
      if byte < len then
        hexBytes group turns (byte + 1)
          (hdPrint a.trglinebuflen l (byteSep group byte ++ hexText (a.buf byte)))
      else if a.showAsciiColumn then
        hexBytes group turns (byte + 1) (hdPrint a.trglinebuflen l (byteSep group byte ++ [32, 32]))
      else (l, false)

/-- The space in front of a group. -/
def groupSep (group : Nat) (l : HdLine) : HdLine :=
  if group ≠ 0 then hdPrint a.trglinebuflen l [32] else l

/-- The loop over the groups. -/
def hexGroups : Nat → Nat → HdLine → HdLine × Bool
  | 0, _, l => (l, true)
  | turns + 1, group, l =>
      match hexBytes a len group a.groupsize.toNat (group * a.groupsize.toNat) (groupSep a group l) with
      | (l, false) => (l, false)
      | (l, true) => hexGroups turns (group + 1) l

/-- The inner loop over the characters of a group, which ends behind the last byte. -/
def asciiBytes : Nat → Nat → HdLine → HdLine
  | 0, _, l => l
  | turns + 1, byte, l =>
      if byte < len then
        asciiBytes turns (byte + 1) (hdPrint a.trglinebuflen l (asciiText (a.buf byte)))
      else l

/-- The loop over the groups of characters. -/
def asciiGroups : Nat → Nat → HdLine → HdLine
  | 0, _, l => l
  | turns + 1, group, l =>
      asciiGroups turns (group + 1)
        (asciiBytes a len a.groupsize.toNat (group * a.groupsize.toNat) (groupSep a group l))

end Loops

/-- The `ASSERT` that is taken, in the arithmetic of `size_t`. An empty line takes none. -/
def hdAssert (a : HdArgs) : Prop :=
  a.len = 0 ∨
    let nbGroups := a.rowlen / a.groupsize
    if a.showAsciiColumn then
      a.trglinebuflen ≥ (3 * a.groupsize * nbGroups - 1) + nbGroups + 1
    else
      a.trglinebuflen ≥ (3 * a.groupsize * nbGroups - 1) + 2 * nbGroups + 1 +
        (a.groupsize * nbGroups - 1) + 1

instance (a : HdArgs) : Decidable (hdAssert a) := inferInstanceAs (Decidable (_ ∨ _))

/-- `_hdline2buf` up to the label `eol`. -/
def hdText (a : HdArgs) (l : HdLine) : HdLine :=
  if a.len = 0 then l
  else
    let len := (if a.len > a.rowlen then a.rowlen else a.len).toNat
    let nbGroups := (a.rowlen / a.groupsize).toNat
    match hexGroups a len nbGroups 0 l with
    | (l, false) => l
    | (l, true) =>
        if a.showAsciiColumn then asciiGroups a len nbGroups 0 (hdPrint a.trglinebuflen l [32])
        else l

/-- `_hdline2buf`: the memory behind it, and the line at `eol`. -/
def hdline2buf (a : HdArgs) (mem : Bytes) : Except Fault (Bytes × HdLine) :=
  if ¬hdAssert a then .error .assert
  else
    let l := hdText a ⟨mem, 0, [0]⟩
    .ok (Function.update l.mem l.pos 0, l)

/-! ## What a line should do -/

/-- No position is behind the last byte of the buffer, where the terminator has to fit, and no byte behind
the buffer changes. -/
def LineFits (a : HdArgs) (mem : Bytes) : Prop :=
  ∃ mem' l, hdline2buf a mem = .ok (mem', l) ∧
    (∀ p ∈ l.trace, p + 1 ≤ a.trglinebuflen.toNat) ∧
    ∀ i, a.trglinebuflen.toNat ≤ i → mem' i = mem i

/-- The bytes that a line needs. -/
def hdNeeded (a : HdArgs) : Nat :=
  let r := a.rowlen.toNat
  let g := a.groupsize.toNat
  let m := min a.len.toNat r
  if a.len = 0 then 1
  else if a.showAsciiColumn then (3 * r - 1) + 2 * (r / g - 1) + m + 2
  else (3 * m - 1) + min (r / g - 1) (m / g) + 1

/-! ## Pieces -/

/-- Some pieces of `n` characters together. -/
def Printed (buflen : UInt64) (l l' : HdLine) (n : Nat) : Prop :=
  ∃ texts : List (List UInt8), l' = texts.foldl (hdPrint buflen) l ∧ (texts.map List.length).sum = n

section Printed

variable {buflen : UInt64} {l l' l'' : HdLine} {m n : Nat}

theorem Printed.refl (l : HdLine) : Printed buflen l l 0 := ⟨[], rfl, rfl⟩

theorem Printed.one (buflen : UInt64) (l : HdLine) (text : List UInt8) :
    Printed buflen l (hdPrint buflen l text) text.length :=
  ⟨[text], rfl, List.sum_singleton⟩

theorem Printed.trans (h : Printed buflen l l' m) (h' : Printed buflen l' l'' n) :
    Printed buflen l l'' (m + n) := by
  obtain ⟨ts, rfl, hm⟩ := h
  obtain ⟨us, rfl, hn⟩ := h'
  exact ⟨ts ++ us, (List.foldl_append ..).symm, by rw [List.map_append, List.sum_append, hm, hn]⟩

theorem Printed.cast (h : Printed buflen l l' m) (he : m = n) : Printed buflen l l' n := he ▸ h

theorem Printed.pos (h : Printed buflen l l' n) : l'.pos = l.pos + n := by
  obtain ⟨ts, rfl, rfl⟩ := h
  induction ts generalizing l with
  | nil => rfl
  | cons t ts ih =>
      rw [List.foldl_cons, ih, List.map_cons, List.sum_cons]
      exact Nat.add_assoc _ _ _

/-- The last position is the largest. -/
theorem Printed.trace (h : Printed buflen l l' n) (hle : ∀ p ∈ l.trace, p ≤ l.pos)
    (hmem : l.pos ∈ l.trace) : (∀ p ∈ l'.trace, p ≤ l'.pos) ∧ l'.pos ∈ l'.trace := by
  obtain ⟨ts, rfl, -⟩ := h
  induction ts generalizing l with
  | nil => exact ⟨hle, hmem⟩
  | cons t ts ih =>
      refine ih (fun p hp => ?_) (List.mem_append_right _ (List.mem_singleton.2 rfl))
      rcases List.mem_append.1 hp with hp | hp
      · exact (hle p hp).trans (Nat.le_add_right _ _)
      · exact Nat.le_of_eq (List.mem_singleton.1 hp)

/-- Pieces that end within the buffer stay in it. -/
theorem Printed.mem (h : Printed buflen l l' n) (hfit : l.pos + n + 1 ≤ buflen.toNat) {i : Nat}
    (hi : buflen.toNat ≤ i) : l'.mem i = l.mem i := by
  obtain ⟨ts, rfl, rfl⟩ := h
  induction ts generalizing l with
  | nil => rfl
  | cons t ts ih =>
      have hlt := buflen.toNat_lt
      rw [List.map_cons, List.sum_cons] at hfit
      have hsize : (buflen - UInt64.ofNat l.pos).toNat = buflen.toNat - l.pos := by
        have hpos := Word.toNat_ofNat (n := l.pos) (by omega)
        rw [Word.toNat_sub (by omega), hpos]
      rw [List.foldl_cons, ih (by show l.pos + t.length + _ + 1 ≤ _; omega)]
      unfold hdPrint
      dsimp only
      rw [hsize, if_neg (by omega)]
      exact Bytes.blit_outside (Or.inr (by omega))

end Printed

/-! ## The loops -/

/-- The characters in front of byte `n` but for the spaces between groups: two each, and a space in front of
all but the first. -/
def hexWidth (n : Nat) : Nat := 3 * n - 1

section Loops

variable {a : HdArgs} {len group byte turns : Nat} {l : HdLine}

theorem byteSep_length (h : group ≠ 0 → byte ≠ 0) (text : List UInt8) (ht : text.length = 2) :
    (byteSep group byte ++ text).length = hexWidth (byte + 1) - hexWidth byte := by
  unfold byteSep hexWidth
  by_cases h0 : byte = 0
  · have hg : group = 0 := by
      by_contra hne
      exact h hne h0
    simp [h0, hg, ht]
  · rw [if_pos (Or.inr h0), List.length_append, ht]
    show 1 + 2 = _
    omega

/-- With the column of characters every byte of a group is printed, or blanks for it. -/
theorem hexBytes_ascii (hascii : a.showAsciiColumn = true) (h : group ≠ 0 → byte ≠ 0) :
    (hexBytes a len group turns byte l).2 = true ∧
      Printed a.trglinebuflen l (hexBytes a len group turns byte l).1
        (hexWidth (byte + turns) - hexWidth byte) := by
  induction turns generalizing byte l with
  | zero =>
      rw [Nat.add_zero, Nat.sub_self]
      exact ⟨rfl, Printed.refl l⟩
  | succ turns ih =>
      have hsum : hexWidth (byte + (turns + 1)) - hexWidth byte =
          hexWidth (byte + 1) - hexWidth byte + (hexWidth (byte + 1 + turns) - hexWidth (byte + 1)) := by
        unfold hexWidth
        omega
      have hnext : group ≠ 0 → byte + 1 ≠ 0 := fun _ => Nat.succ_ne_zero byte
      rw [hexBytes, hsum]
      by_cases hlt : byte < len
      · rw [if_pos hlt]
        have hone := Printed.one a.trglinebuflen l (byteSep group byte ++ hexText (a.buf byte))
        rw [byteSep_length h _ rfl] at hone
        obtain ⟨h1, h2⟩ := ih (l := hdPrint a.trglinebuflen l _) hnext
        exact ⟨h1, hone.trans h2⟩
      · rw [if_neg hlt, if_pos hascii]
        have hone := Printed.one a.trglinebuflen l (byteSep group byte ++ [32, 32])
        rw [byteSep_length h _ rfl] at hone
        obtain ⟨h1, h2⟩ := ih (l := hdPrint a.trglinebuflen l _) hnext
        exact ⟨h1, hone.trans h2⟩

/-- Without it a group ends behind the last byte, and the line with it. -/
theorem hexBytes_plain (hascii : a.showAsciiColumn = false) (h : group ≠ 0 → byte ≠ 0)
    (hle : byte ≤ len) :
    (hexBytes a len group turns byte l).2 = decide (byte + turns ≤ len) ∧
      Printed a.trglinebuflen l (hexBytes a len group turns byte l).1
        (hexWidth (min (byte + turns) len) - hexWidth byte) := by
  induction turns generalizing byte l with
  | zero =>
      rw [Nat.add_zero, Nat.min_eq_left hle, Nat.sub_self]
      exact ⟨(decide_eq_true hle).symm, Printed.refl l⟩
  | succ turns ih =>
      have hnext : group ≠ 0 → byte + 1 ≠ 0 := fun _ => Nat.succ_ne_zero byte
      rw [hexBytes]
      by_cases hlt : byte < len
      · have hsum : hexWidth (min (byte + (turns + 1)) len) - hexWidth byte =
            hexWidth (byte + 1) - hexWidth byte +
              (hexWidth (min (byte + 1 + turns) len) - hexWidth (byte + 1)) := by
          unfold hexWidth
          omega
        have hone := Printed.one a.trglinebuflen l (byteSep group byte ++ hexText (a.buf byte))
        rw [byteSep_length h _ rfl] at hone
        obtain ⟨h1, h2⟩ := ih (l := hdPrint a.trglinebuflen l _) hnext hlt
        rw [if_pos hlt, hsum, ← Nat.add_assoc, Nat.add_right_comm]
        exact ⟨h1, hone.trans h2⟩
      · have hend : min (byte + (turns + 1)) len = byte := by omega
        rw [if_neg hlt, hascii, if_neg Bool.false_ne_true, hend, Nat.sub_self]
        exact ⟨(decide_eq_false (by omega)).symm, Printed.refl l⟩

theorem groupSep_printed (a : HdArgs) (group : Nat) (l : HdLine) :
    Printed a.trglinebuflen l (groupSep a group l) (if group ≠ 0 then 1 else 0) := by
  unfold groupSep
  split
  · exact Printed.one a.trglinebuflen l [32]
  · exact Printed.refl l

/-- The spaces in front of the groups from `group` to before `last`. -/
def groupSpaces (group last : Nat) : Nat := last - max group 1

theorem groupSpaces_succ {last : Nat} (h : group < last) :
    groupSpaces group last = (if group ≠ 0 then 1 else 0) + groupSpaces (group + 1) last := by
  unfold groupSpaces
  split <;> omega

/-- A group begins with a byte other than the first, unless it is the first group. -/
theorem byte_ne_zero (hg : 0 < a.groupsize.toNat) : group ≠ 0 → group * a.groupsize.toNat ≠ 0 :=
  fun h => Nat.mul_ne_zero h (Nat.ne_of_gt hg)

/-- One turn of the loop over the groups. -/
theorem hexGroups_step {x : HdLine} {go : Bool}
    (hx : hexBytes a len group a.groupsize.toNat (group * a.groupsize.toNat) (groupSep a group l) = (x, go)) :
    hexGroups a len (turns + 1) group l = if go then hexGroups a len turns (group + 1) x else (x, false) := by
  rw [hexGroups, hx]
  cases go <;> rfl

theorem hexGroups_ascii (hascii : a.showAsciiColumn = true) (hg : 0 < a.groupsize.toNat) :
    (hexGroups a len turns group l).2 = true ∧
      Printed a.trglinebuflen l (hexGroups a len turns group l).1
        (hexWidth ((group + turns) * a.groupsize.toNat) - hexWidth (group * a.groupsize.toNat) +
          groupSpaces group (group + turns)) := by
  induction turns generalizing group l with
  | zero =>
      refine ⟨rfl, (Printed.refl l).cast ?_⟩
      unfold groupSpaces
      rw [Nat.add_zero]
      omega
  | succ turns ih =>
      cases hx : hexBytes a len group a.groupsize.toNat (group * a.groupsize.toNat) (groupSep a group l) with
      | mk x go =>
          have hbytes : (x, go).2 = true ∧ Printed a.trglinebuflen (groupSep a group l) (x, go).1 _ :=
            hx ▸ hexBytes_ascii hascii (byte_ne_zero hg)
          obtain ⟨rfl, hbytes⟩ := hbytes
          obtain ⟨hall, hrest⟩ := @ih (group + 1) x
          have hle : group * a.groupsize.toNat + a.groupsize.toNat ≤
              (group + 1 + turns) * a.groupsize.toNat := by
            rw [← Nat.succ_mul]
            exact Nat.mul_le_mul_right _ (Nat.le_add_right _ _)
          have hsum := ((groupSep_printed a group l).trans hbytes).trans hrest
          have hcount : group + (turns + 1) = group + 1 + turns := by omega
          rw [hexGroups_step hx, if_pos rfl, hcount, groupSpaces_succ (by omega)]
          rw [Nat.succ_mul group] at hsum
          refine ⟨hall, hsum.cast ?_⟩
          unfold hexWidth
          omega

/-- Without the column of characters the line ends in the group of the byte behind the last. -/
theorem hexGroups_plain (hascii : a.showAsciiColumn = false) (hg : 0 < a.groupsize.toNat)
    (hlo : group * a.groupsize.toNat ≤ len) (hhi : len ≤ (group + turns) * a.groupsize.toNat) :
    Printed a.trglinebuflen l (hexGroups a len turns group l).1
      (hexWidth len - hexWidth (group * a.groupsize.toNat) +
        groupSpaces group (min (group + turns) (len / a.groupsize.toNat + 1))) := by
  induction turns generalizing group l with
  | zero =>
      have hlen : len = group * a.groupsize.toNat := Nat.le_antisymm hhi hlo
      have hnone : groupSpaces group (min (group + 0) (len / a.groupsize.toNat + 1)) = 0 := by
        unfold groupSpaces
        omega
      rw [hnone, hlen, Nat.sub_self]
      exact Printed.refl l
  | succ turns ih =>
      have hdiv : group ≤ len / a.groupsize.toNat := (Nat.le_div_iff_mul_le hg).2 hlo
      cases hx : hexBytes a len group a.groupsize.toNat (group * a.groupsize.toNat) (groupSep a group l) with
      | mk x go =>
          have hbytes : (x, go).2 = decide (group * a.groupsize.toNat + a.groupsize.toNat ≤ len) ∧
              Printed a.trglinebuflen (groupSep a group l) (x, go).1 _ :=
            hx ▸ hexBytes_plain hascii (byte_ne_zero hg) hlo
          obtain ⟨rfl, hbytes⟩ := hbytes
          have hhere := (groupSep_printed a group l).trans hbytes
          have hcount : group + (turns + 1) = group + 1 + turns := by omega
          rw [hexGroups_step hx, hcount, groupSpaces_succ (by omega)]
          by_cases hmore : group * a.groupsize.toNat + a.groupsize.toNat ≤ len
          · have hlo' : (group + 1) * a.groupsize.toNat ≤ len := by rwa [Nat.succ_mul]
            have hrest := @ih (group + 1) x hlo' (by rwa [← hcount])
            rw [if_pos (decide_eq_true hmore)]
            rw [Nat.succ_mul group] at hrest
            refine (hhere.trans hrest).cast ?_
            rw [Nat.min_eq_left hmore]
            unfold hexWidth
            omega
          · -- the group of the end of the line
            have hlast : len / a.groupsize.toNat = group := by
              refine Nat.div_eq_of_lt_le hlo ?_
              rw [Nat.succ_mul]
              omega
            have hnone : groupSpaces (group + 1) (min (group + 1 + turns) (group + 1)) = 0 := by
              unfold groupSpaces
              omega
            rw [if_neg (by simpa using hmore), hlast, hnone]
            refine hhere.cast ?_
            rw [Nat.min_eq_right (by omega)]
            omega

/-- The characters of a group, up to the last byte. -/
theorem asciiBytes_printed :
    Printed a.trglinebuflen l (asciiBytes a len turns byte l) (min (byte + turns) len - byte) := by
  induction turns generalizing byte l with
  | zero => exact (Printed.refl l).cast (by omega)
  | succ turns ih =>
      rw [asciiBytes]
      by_cases hlt : byte < len
      · rw [if_pos hlt]
        refine ((Printed.one a.trglinebuflen l (asciiText (a.buf byte))).trans ih).cast ?_
        show 1 + _ = _
        omega
      · rw [if_neg hlt]
        exact (Printed.refl l).cast (by omega)

theorem asciiGroups_printed :
    Printed a.trglinebuflen l (asciiGroups a len turns group l)
      (min ((group + turns) * a.groupsize.toNat) len - group * a.groupsize.toNat +
        groupSpaces group (group + turns)) := by
  induction turns generalizing group l with
  | zero =>
      refine (Printed.refl l).cast ?_
      unfold groupSpaces
      rw [Nat.add_zero]
      omega
  | succ turns ih =>
      have hrest := @ih (group + 1)
        (asciiBytes a len a.groupsize.toNat (group * a.groupsize.toNat) (groupSep a group l))
      have hle : group * a.groupsize.toNat + a.groupsize.toNat ≤
          (group + 1 + turns) * a.groupsize.toNat := by
        rw [← Nat.succ_mul]
        exact Nat.mul_le_mul_right _ (Nat.le_add_right _ _)
      have hcount : group + (turns + 1) = group + 1 + turns := by omega
      rw [Nat.succ_mul group] at hrest
      rw [asciiGroups, hcount, groupSpaces_succ (by omega)]
      refine (((groupSep_printed a group l).trans asciiBytes_printed).trans hrest).cast ?_
      omega

end Loops

/-! ## A line -/

section Line

variable {a : HdArgs}

/-- The position at the end of a line is the size that the line needs but for the terminator. -/
theorem hdText_printed (hg : 0 < a.groupsize.toNat) (hdvd : a.groupsize.toNat ∣ a.rowlen.toNat)
    (l : HdLine) : Printed a.trglinebuflen l (hdText a l) (hdNeeded a - 1) := by
  unfold hdText hdNeeded
  by_cases h0 : a.len = 0
  · rw [if_pos h0, if_pos h0]
    exact Printed.refl l
  rw [if_neg h0, if_neg h0]
  have hlen : (if a.len > a.rowlen then a.rowlen else a.len).toNat = min a.len.toNat a.rowlen.toNat := by
    by_cases hgt : a.len > a.rowlen
    · have hlt := UInt64.lt_iff_toNat_lt.1 hgt
      rw [if_pos hgt, Nat.min_eq_right hlt.le]
    · have hle := UInt64.le_iff_toNat_le.1 (UInt64.not_lt.1 hgt)
      rw [if_neg hgt, Nat.min_eq_left hle]
  have hnb : (a.rowlen / a.groupsize).toNat = a.rowlen.toNat / a.groupsize.toNat := UInt64.toNat_div _ _
  have hrow : a.rowlen.toNat / a.groupsize.toNat * a.groupsize.toNat = a.rowlen.toNat :=
    Nat.div_mul_cancel hdvd
  dsimp only
  rw [hlen, hnb]
  have hmin := Nat.min_le_right a.len.toNat a.rowlen.toNat
  generalize min a.len.toNat a.rowlen.toNat = m at *
  generalize a.rowlen.toNat / a.groupsize.toNat = n at *
  by_cases hascii : a.showAsciiColumn = true
  · have hhex : (hexGroups a m n 0 l).2 = true ∧ Printed a.trglinebuflen l (hexGroups a m n 0 l).1 _ :=
      hexGroups_ascii hascii hg
    cases hx : hexGroups a m n 0 l with
    | mk x go =>
        rw [hx] at hhex
        obtain ⟨rfl, hhex⟩ := hhex
        rw [Nat.zero_add, hrow, Nat.zero_mul] at hhex
        have hcol : Printed a.trglinebuflen (hdPrint a.trglinebuflen x [32]) (asciiGroups a m n 0 _) _ :=
          asciiGroups_printed
        rw [Nat.zero_add, hrow, Nat.zero_mul] at hcol
        dsimp only
        rw [if_pos hascii, if_pos hascii]
        refine ((hhex.trans (Printed.one a.trglinebuflen x [32])).trans hcol).cast ?_
        unfold hexWidth groupSpaces
        rw [List.length_singleton]
        omega
  · have hplain := Bool.eq_false_iff.2 hascii
    have hhex : Printed a.trglinebuflen l (hexGroups a m n 0 l).1 _ :=
      hexGroups_plain hplain hg (by omega) (by rw [Nat.zero_add, hrow]; exact hmin)
    rw [Nat.zero_add, Nat.zero_mul] at hhex
    have hsame : (match hexGroups a m n 0 l with
        | (l, false) => l
        | (l, true) =>
            if a.showAsciiColumn then asciiGroups a m n 0 (hdPrint a.trglinebuflen l [32]) else l) =
          (hexGroups a m n 0 l).1 := by
      cases hexGroups a m n 0 l with
      | mk x go =>
          cases go with
          | false => rfl
          | true => exact if_neg hascii
    rw [hsame, if_neg hascii]
    refine hhex.cast ?_
    unfold hexWidth groupSpaces
    generalize m / a.groupsize.toNat = q
    omega

theorem hdNeeded_pos (a : HdArgs) : 0 < hdNeeded a := by
  unfold hdNeeded
  dsimp only
  split
  · exact Nat.one_pos
  · split <;> exact Nat.succ_pos _

/-- A line stays in its buffer exactly if the buffer has the size that it needs. -/
theorem lineFits_iff (hg : 0 < a.groupsize.toNat) (hdvd : a.groupsize.toNat ∣ a.rowlen.toNat)
    (hassert : hdAssert a) (mem : Bytes) : LineFits a mem ↔ hdNeeded a ≤ a.trglinebuflen.toNat := by
  have hprinted := hdText_printed hg hdvd ⟨mem, 0, [0]⟩
  have hpos := hprinted.pos
  obtain ⟨htrace, hlast⟩ := hprinted.trace (fun p hp => Nat.le_of_eq (List.mem_singleton.1 hp))
    List.mem_cons_self
  have hneeded := hdNeeded_pos a
  have hline : hdline2buf a mem = .ok (Function.update (hdText a ⟨mem, 0, [0]⟩).mem
      (hdText a ⟨mem, 0, [0]⟩).pos 0, hdText a ⟨mem, 0, [0]⟩) := if_neg (not_not.2 hassert)
  unfold LineFits
  rw [hline]
  constructor
  · rintro ⟨mem', l, he, hall, -⟩
    obtain ⟨rfl, rfl⟩ := Prod.mk.inj (Except.ok.inj he)
    have hend := hall _ hlast
    rw [hpos] at hend
    dsimp only at hend
    omega
  · intro hfit
    refine ⟨_, _, rfl, fun p hp => ?_, fun i hi => ?_⟩
    · have hle := htrace p hp
      rw [hpos] at hle
      dsimp only at hle
      omega
    · rw [Function.update_of_ne (by rw [hpos]; dsimp only; omega)]
      exact hprinted.mem (by dsimp only; omega) hi

end Line

/-- A line of a hexdump fits its buffer, which the `ASSERT` has let pass, exactly if the buffer has room for
all pieces: with the column of characters that is more than the `ASSERT` asks for. The bytes are arbitrary.
Fitting is that no position leaves the buffer, with room for the terminator, and that no byte behind the
buffer changes. -/
theorem hdline_fits (a : HdArgs) (mem : Bytes) (hg : 1 ≤ a.groupsize)
    (hdvd : a.groupsize.toNat ∣ a.rowlen.toNat) (hassert : hdAssert a) :
    LineFits a mem ↔ hdNeeded a ≤ a.trglinebuflen.toNat :=
  lineFits_iff (UInt64.le_iff_toNat_le.1 hg) hdvd hassert mem

/-- A line of 128 bytes in groups of one, with the column of characters, in the 512 bytes that `hexdump`
has for it. -/
def longLine : HdArgs := ⟨fun _ => 65, 128, 128, 1, true, 512⟩

theorem hdline_overflows : hdAssert longLine ∧ ¬LineFits longLine fun _ => 0 :=
  ⟨by decide, mt (lineFits_iff (by decide) (by decide) (by decide) _).1 (by decide)⟩

/-- The same line fits a buffer of 767 bytes. -/
theorem hdline_fits_long : LineFits { longLine with trglinebuflen := 767 } fun _ => 0 :=
  (hdline_fits _ _ (by decide) (by decide) (by decide)).2 (by decide)

end Minipython.Minios
