/-
# Minipython.Minios.HexdumpText — what a hexdump says (hexdump.c)

`hexdump` prints its lines one behind the other, each with an address in front. `Hexdump` is about how long a
line is; here it is about what is in it. The digits of the bytes take the first columns of a line, in groups
with spaces between, and the column of characters comes behind. So the bytes can be read back: those columns
without the spaces are the digits.

`readHdLine` is the reader of a line and `readHexdump` that of a dump, which skips the address in front of
each line. `Writes` says which text a piece of the printer has stored, and `Digits` what the text of the
digits so far reads as; `hdline2buf_text` puts the pieces of a line together, and `hexdump_dumped` the lines
of a dump.

The rows are those that fit the buffer of `hexdump` (`HexdumpArgs.Fits`), where nothing is stored behind it.
`ShellRead` uses this for the dump of a file.
-/
import Minipython.Lib.Text
import Minipython.Minios.Hexdump
import Minipython.Shfs.Fio

namespace Minipython.Minios

open Minipython.Lib
open Minipython.Lib.Bytes (blit)
open Minipython.Shfs (Fault hexDigit)
open Minipython.Shfs.HashString (hexChar stringMem)

/-! ## The code -/

/-- `enum hd_addr_type`; an absolute address is printed by `%p`. -/
inductive HdAddrType where
  | none
  | relative
  | absolute (text : Nat → List UInt8)

/-- `%.8x` of a number: of its low 32 bits, and at least eight digits. -/
def hex8 (n : Nat) : List UInt8 := (List.range 8).map fun k => hexChar (UInt8.ofNat (n / 16 ^ (7 - k) % 16))

/-- `%s` of a string in a buffer of `size` bytes. -/
def cText (mem : Bytes) (size : Nat) : List UInt8 := ((List.range size).map mem).takeWhile (· ≠ 0)

/-- What is in front of the line for the bytes from `i` on. -/
def HdAddrType.text (addrOffset i : Nat) : HdAddrType → List UInt8
  | .none => []
  | .relative => hex8 (i + addrOffset) ++ [58, 32]
  | .absolute text => text i ++ [58, 32]

/-- The arguments of `hexdump` but for the console and the address offset. -/
structure HexdumpArgs where
  prefixStr : List UInt8
  addrType : HdAddrType
  rowlen : UInt64
  groupsize : UInt64
  showAsciiColumn : Bool

/-- `char linebuf[512]`. -/
def linebufSize : Nat := 512

/-- The loop of `hexdump` over `remaining` bytes from the byte `i` on, and what it prints. -/
def hexdumpLoop (a : HexdumpArgs) (buf : Bytes) (addrOffset : Nat) :
    Nat → Nat → Nat → Bytes → Except Fault (List UInt8)
  | 0, _, _, _ => .ok []
  | fuel + 1, i, remaining, linebuf =>
      if remaining = 0 then .ok []
      else do
        let linelen := min remaining a.rowlen.toNat
        let (linebuf, _) ← hdline2buf ⟨Bytes.window buf i, UInt64.ofNat linelen, a.rowlen, a.groupsize,
          a.showAsciiColumn, UInt64.ofNat linebufSize⟩ linebuf
        let rest ← hexdumpLoop a buf addrOffset fuel (i + a.rowlen.toNat) (remaining - linelen) linebuf
        return a.prefixStr ++ a.addrType.text addrOffset i ++ cText linebuf linebufSize ++ [10] ++ rest

/-- `hexdump`. -/
def hexdump (a : HexdumpArgs) (buf : Bytes) (len addrOffset : Nat) (linebuf : Bytes) :
    Except Fault (List UInt8) :=
  if ¬(a.rowlen = 16 ∨ a.rowlen = 32 ∨ a.rowlen = 64 ∨ a.rowlen = 128) then .error .assert
  else if ¬(a.groupsize = 1 ∨ a.groupsize = 2 ∨ a.groupsize = 4 ∨ a.groupsize = 8) then .error .assert
  else hexdumpLoop a buf addrOffset len 0 len linebuf

/-! ## Reading a line -/

/-- The bytes that digits stand for. -/
def readHex : List UInt8 → Option (List UInt8)
  | [] => some []
  | [_] => none
  | u :: l :: rest => do
      let u ← hexDigit u
      let l ← hexDigit l
      let bytes ← readHex rest
      return (u <<< 4 ||| l) :: bytes

/-- The columns that the digits of a row take, with the spaces between them. -/
def hexColumns (rowlen groupsize : Nat) : Nat := hexWidth rowlen + (rowlen / groupsize - 1)

/-- The bytes in a line behind its address. -/
def readHdLine (rowlen groupsize : Nat) (line : List UInt8) : Option (List UInt8) :=
  readHex ((line.take (hexColumns rowlen groupsize)).filter (· ≠ 32))

/-- The bytes of a dump, whose addresses take `skip` columns. -/
def readHexdump (skip rowlen groupsize : Nat) (text : List UInt8) : Option (List UInt8) := do
  let lines ← textLines 10 text
  let rows ← lines.mapM fun line => readHdLine rowlen groupsize (line.drop skip)
  return rows.flatten

/-! ## Text -/

/-- A character that a terminal shows. -/
def Printable (c : UInt8) : Prop := 32 ≤ c ∧ c ≤ 126

/-- Some pieces that together are the text. -/
def Writes (buflen : UInt64) (l l' : HdLine) (text : List UInt8) : Prop :=
  ∃ texts : List (List UInt8), l' = texts.foldl (hdPrint buflen) l ∧ texts.flatten = text

section Writes

variable {buflen : UInt64} {l l' l'' : HdLine} {s t : List UInt8} {n : Nat}

theorem Writes.refl (l : HdLine) : Writes buflen l l [] := ⟨[], rfl, rfl⟩

theorem Writes.one (buflen : UInt64) (l : HdLine) (text : List UInt8) :
    Writes buflen l (hdPrint buflen l text) text := ⟨[text], rfl, by simp⟩

theorem Writes.trans (h : Writes buflen l l' s) (h' : Writes buflen l' l'' t) :
    Writes buflen l l'' (s ++ t) := by
  rcases h with ⟨ss, rfl, rfl⟩
  rcases h' with ⟨ts, rfl, rfl⟩
  exact ⟨ss ++ ts, (List.foldl_append ..).symm, List.flatten_append⟩

/-- The pieces are as long as the text. -/
theorem Writes.printed (h : Writes buflen l l' t) : Printed buflen l l' t.length := by
  rcases h with ⟨ts, rfl, rfl⟩
  exact ⟨ts, rfl, List.length_flatten.symm⟩

/-- Text that ends within the buffer is there, behind what was there. -/
theorem Writes.mem (h : Writes buflen l l' t) (hfit : l.pos + t.length + 1 ≤ buflen.toNat) :
    (∀ i < l.pos, l'.mem i = l.mem i) ∧ ∀ i (hi : i < t.length), l'.mem (l.pos + i) = t[i] := by
  rcases h with ⟨ts, rfl, rfl⟩
  induction ts generalizing l with
  | nil => simp
  | cons s ts ih =>
      have hlt := buflen.toNat_lt
      simp only [List.flatten_cons, List.length_append] at hfit ⊢
      have hsize : (buflen - UInt64.ofNat l.pos).toNat = buflen.toNat - l.pos := by
        have hpos := Word.toNat_ofNat (n := l.pos) (by omega)
        rw [Word.toNat_sub (by omega), hpos]
      have hmem : (hdPrint buflen l s).mem = blit l.mem l.pos (stringMem s) (s.length + 1) := by
        unfold hdPrint
        dsimp only
        rw [hsize, if_neg (by omega), Nat.min_eq_left (by omega), List.take_length]
      have hrest := @ih (hdPrint buflen l s) (by show l.pos + s.length + _ + 1 ≤ _; omega)
      have hnext : (hdPrint buflen l s).pos = l.pos + s.length := rfl
      rw [hnext, hmem] at hrest
      rw [List.foldl_cons]
      constructor
      · intro i hi
        rw [hrest.1 i (by omega)]
        exact Bytes.blit_outside (Or.inl hi)
      · intro i hi
        by_cases hin : i < s.length
        · have hhere : blit l.mem l.pos (stringMem s) (s.length + 1) (l.pos + i) = stringMem s i :=
            Bytes.blit_inside (by omega)
          rw [hrest.1 _ (by omega), hhere, stringMem, List.getD_eq_getElem _ _ hin,
            List.getElem_append_left hin]
        · have hthere := hrest.2 (i - s.length) (by omega)
          have hat : l.pos + s.length + (i - s.length) = l.pos + i := by omega
          rw [hat] at hthere
          rw [hthere, List.getElem_append_right (by omega)]

end Writes

/-! ## The digits of a line -/

/-- Text with the digits of the bytes, and spaces between. -/
structure Digits (bytes t : List UInt8) : Prop where
  digits : t.filter (· ≠ 32) = bytes.flatMap hexText
  printable : ∀ c ∈ t, Printable c

theorem hexChar_text : ∀ v < 16, hexChar v ≠ 32 ∧ Printable (hexChar v) := by
  apply Shfs.HashString.forall_uint8
  unfold Printable
  decide +kernel

theorem digits_hexText (b : UInt8) : Digits [b] (hexText b) := by
  have hhigh := hexChar_text _ (Shfs.HashString.nibbles b).1
  have hlow := hexChar_text _ (Shfs.HashString.nibbles b).2.1
  constructor
  · simp [hexText, hhigh.1, hlow.1]
  · simpa [hexText] using ⟨hhigh.2, hlow.2⟩

/-- Spaces are no digits. -/
theorem digits_spaces {t : List UInt8} (ht : ∀ c ∈ t, c = 32) : Digits [] t := by
  constructor
  · exact List.filter_eq_nil_iff.2 fun c hc => by simp [ht c hc]
  · intro c hc
    rw [ht c hc]
    exact ⟨by decide, by decide⟩

theorem Digits.append {bytes bytes' s t : List UInt8} (h : Digits bytes s) (h' : Digits bytes' t) :
    Digits (bytes ++ bytes') (s ++ t) := by
  constructor
  · rw [List.filter_append, h.digits, h'.digits, List.flatMap_append]
  · intro c hc
    rcases List.mem_append.1 hc with hc | hc
    · exact h.printable c hc
    · exact h'.printable c hc

theorem byteSep_spaces (group byte : Nat) : ∀ c ∈ byteSep group byte, c = 32 := by
  unfold byteSep
  split <;> simp

/-- The bytes from `first` up to before `last`. -/
def slice (buf : Bytes) (first last : Nat) : List UInt8 := (List.range' first (last - first)).map buf

theorem slice_nil {buf : Bytes} {first last : Nat} (h : last ≤ first) : slice buf first last = [] := by
  rw [slice, Nat.sub_eq_zero_of_le h]
  rfl

theorem slice_cons {buf : Bytes} {first last : Nat} (h : first < last) :
    slice buf first last = buf first :: slice buf (first + 1) last := by
  have hcount : last - first = last - (first + 1) + 1 := by omega
  rw [slice, hcount, List.range'_succ]
  rfl

theorem slice_append {buf : Bytes} {first mid last : Nat} (h : first ≤ mid) (h' : mid ≤ last) :
    slice buf first mid ++ slice buf mid last = slice buf first last := by
  have hcount : last - first = mid - first + (last - mid) := by omega
  rw [slice, slice, slice, hcount, ← List.map_append, ← List.range'_append_1, Nat.add_sub_cancel' h]

section Lines

variable {a : HdArgs} {len group byte turns : Nat} {l : HdLine}

/-- The inner loop prints the bytes of its range that there are. -/
theorem hexBytes_writes (a : HdArgs) (len group byte turns : Nat) (l : HdLine) :
    ∃ t, Writes a.trglinebuflen l (hexBytes a len group turns byte l).1 t ∧
      Digits (slice a.buf byte (min (byte + turns) len)) t := by
  induction turns generalizing byte l with
  | zero =>
      refine ⟨[], Writes.refl l, ?_⟩
      rw [slice_nil (by omega)]
      exact digits_spaces (List.forall_mem_nil _)
  | succ turns ih =>
      have hnext : byte + (turns + 1) = byte + 1 + turns := by omega
      rw [hexBytes]
      by_cases hlt : byte < len
      · rw [if_pos hlt]
        rcases ih (byte + 1) (hdPrint a.trglinebuflen l (byteSep group byte ++ hexText (a.buf byte)))
          with ⟨t, hwrites, hdigits⟩
        have hone : Digits ([] ++ [a.buf byte]) (byteSep group byte ++ hexText (a.buf byte)) :=
          (digits_spaces (byteSep_spaces group byte)).append (digits_hexText (a.buf byte))
        refine ⟨_, (Writes.one a.trglinebuflen l _).trans hwrites, ?_⟩
        rw [slice_cons (by omega), hnext]
        exact hone.append hdigits
      · rw [if_neg hlt]
        have hnone : slice a.buf byte (min (byte + (turns + 1)) len) = [] := slice_nil (by omega)
        split
        · rcases ih (byte + 1) (hdPrint a.trglinebuflen l (byteSep group byte ++ [32, 32]))
            with ⟨t, hwrites, hdigits⟩
          have hblank : Digits [] (byteSep group byte ++ [32, 32]) := by
            apply digits_spaces
            intro c hc
            rcases List.mem_append.1 hc with hc | hc
            · exact byteSep_spaces group byte c hc
            · simpa using hc
          rw [slice_nil (by omega)] at hdigits
          refine ⟨_, (Writes.one a.trglinebuflen l _).trans hwrites, ?_⟩
          rw [hnone]
          exact hblank.append hdigits
        · refine ⟨[], Writes.refl l, ?_⟩
          rw [hnone]
          exact digits_spaces (List.forall_mem_nil _)

/-- It jumps to the end of the line only behind the last byte. -/
theorem hexBytes_jump (h : (hexBytes a len group turns byte l).2 = false) : len < byte + turns := by
  induction turns generalizing byte l with
  | zero => cases h
  | succ turns ih =>
      rw [hexBytes] at h
      split at h
      · have hrest := ih h
        omega
      · split at h
        · have hrest := ih h
          omega
        · omega

theorem groupSep_writes (a : HdArgs) (group : Nat) (l : HdLine) :
    ∃ t, Writes a.trglinebuflen l (groupSep a group l) t ∧ ∀ c ∈ t, c = 32 := by
  unfold groupSep
  split
  · exact ⟨[32], Writes.one _ l _, by simp⟩
  · exact ⟨[], Writes.refl l, by simp⟩

/-- The loop over the groups. -/
theorem hexGroups_writes (a : HdArgs) (len group turns : Nat) (l : HdLine) :
    ∃ t, Writes a.trglinebuflen l (hexGroups a len turns group l).1 t ∧
      Digits (slice a.buf (group * a.groupsize.toNat) (min ((group + turns) * a.groupsize.toNat) len)) t := by
  induction turns generalizing group l with
  | zero =>
      refine ⟨[], Writes.refl l, ?_⟩
      rw [slice_nil (by rw [Nat.add_zero]; omega)]
      exact digits_spaces (List.forall_mem_nil _)
  | succ turns ih =>
      rcases groupSep_writes a group l with ⟨s, hsep, hspaces⟩
      rcases hexBytes_writes a len group (group * a.groupsize.toNat) a.groupsize.toNat (groupSep a group l)
        with ⟨t, hbytes, hdigits⟩
      have hfirst := hsep.trans hbytes
      have hfirst' := (digits_spaces hspaces).append hdigits
      have hcount : group + (turns + 1) = group + 1 + turns := by omega
      have hgroup : group * a.groupsize.toNat + a.groupsize.toNat = (group + 1) * a.groupsize.toNat :=
        (Nat.succ_mul _ _).symm
      have hle : (group + 1) * a.groupsize.toNat ≤ (group + 1 + turns) * a.groupsize.toNat :=
        Nat.mul_le_mul_right _ (Nat.le_add_right _ _)
      rw [hcount]
      rw [hgroup] at hfirst'
      cases hx : hexBytes a len group a.groupsize.toNat (group * a.groupsize.toNat) (groupSep a group l) with
      | mk x go =>
          rw [hx] at hfirst
          rw [hexGroups_step hx]
          cases go with
          | false =>
              have hend := hexBytes_jump (congrArg Prod.snd hx)
              refine ⟨_, hfirst, ?_⟩
              rw [hgroup] at hend
              rw [Nat.min_eq_right (by omega)] at hfirst' ⊢
              exact hfirst'
          | true =>
              rcases ih (group + 1) x with ⟨u, hrest, hrest'⟩
              refine ⟨_, hfirst.trans hrest, ?_⟩
              have hall := hfirst'.append hrest'
              rw [List.nil_append] at hall
              by_cases hlen : (group + 1) * a.groupsize.toNat ≤ len
              · rw [Nat.min_eq_left hlen, slice_append] at hall
                · exact hall
                · omega
                · omega
              · have hnone : slice a.buf ((group + 1) * a.groupsize.toNat)
                    (min ((group + 1 + turns) * a.groupsize.toNat) len) = [] := slice_nil (by omega)
                rw [hnone, List.append_nil, Nat.min_eq_right (by omega)] at hall
                rw [Nat.min_eq_right (by omega)]
                exact hall

theorem asciiText_printable (b : UInt8) : ∀ c ∈ asciiText b, Printable c := by
  intro c hc
  rw [asciiText, List.mem_singleton] at hc
  rw [hc]
  split
  · assumption
  · exact ⟨by decide, by decide⟩

theorem asciiBytes_writes (a : HdArgs) (len turns byte : Nat) (l : HdLine) :
    ∃ t, Writes a.trglinebuflen l (asciiBytes a len turns byte l) t ∧ ∀ c ∈ t, Printable c := by
  induction turns generalizing byte l with
  | zero => exact ⟨[], Writes.refl l, by simp⟩
  | succ turns ih =>
      rw [asciiBytes]
      split
      · rcases ih (byte + 1) (hdPrint a.trglinebuflen l (asciiText (a.buf byte))) with ⟨t, hwrites, ht⟩
        refine ⟨_, (Writes.one a.trglinebuflen l _).trans hwrites, fun c hc => ?_⟩
        rcases List.mem_append.1 hc with hc | hc
        · exact asciiText_printable _ c hc
        · exact ht c hc
      · exact ⟨[], Writes.refl l, by simp⟩

theorem asciiGroups_writes (a : HdArgs) (len turns group : Nat) (l : HdLine) :
    ∃ t, Writes a.trglinebuflen l (asciiGroups a len turns group l) t ∧ ∀ c ∈ t, Printable c := by
  induction turns generalizing group l with
  | zero => exact ⟨[], Writes.refl l, by simp⟩
  | succ turns ih =>
      rcases groupSep_writes a group l with ⟨s, hsep, hspaces⟩
      rcases asciiBytes_writes a len a.groupsize.toNat (group * a.groupsize.toNat) (groupSep a group l)
        with ⟨t, hbytes, ht⟩
      rcases ih (group + 1) (asciiBytes a len a.groupsize.toNat (group * a.groupsize.toNat) (groupSep a group l))
        with ⟨u, hrest, hu⟩
      refine ⟨_, (hsep.trans hbytes).trans hrest, fun c hc => ?_⟩
      rcases List.mem_append.1 hc with hc | hc
      · rcases List.mem_append.1 hc with hc | hc
        · exact (digits_spaces hspaces).printable c hc
        · exact ht c hc
      · exact hu c hc

/-- A line of a dump: the digits of its bytes, in the columns for them. -/
theorem hdText_writes (h0 : a.len ≠ 0) (hg : 0 < a.groupsize.toNat) (hdvd : a.groupsize.toNat ∣ a.rowlen.toNat)
    (l : HdLine) : ∃ t, Writes a.trglinebuflen l (hdText a l) t ∧ (∀ c ∈ t, Printable c) ∧
      (t.take (hexColumns a.rowlen.toNat a.groupsize.toNat)).filter (· ≠ 32) =
        (slice a.buf 0 (min a.len.toNat a.rowlen.toNat)).flatMap hexText := by
  unfold hdText
  rw [if_neg h0]
  have hlen : (if a.len > a.rowlen then a.rowlen else a.len).toNat = min a.len.toNat a.rowlen.toNat := by
    by_cases hgt : a.len > a.rowlen
    · have hlt := UInt64.lt_iff_toNat_lt.1 hgt
      rw [if_pos hgt, Nat.min_eq_right hlt.le]
    · have hle := UInt64.le_iff_toNat_le.1 (UInt64.not_lt.1 hgt)
      rw [if_neg hgt, Nat.min_eq_left hle]
  have hnb : (a.rowlen / a.groupsize).toNat = a.rowlen.toNat / a.groupsize.toNat := UInt64.toNat_div _ _
  have hrow : a.rowlen.toNat / a.groupsize.toNat * a.groupsize.toNat = a.rowlen.toNat :=
    Nat.div_mul_cancel hdvd
  unfold hexColumns
  dsimp only
  rw [hlen, hnb]
  have hmin := Nat.min_le_right a.len.toNat a.rowlen.toNat
  generalize min a.len.toNat a.rowlen.toNat = m at *
  generalize a.rowlen.toNat / a.groupsize.toNat = n at *
  rcases hexGroups_writes a m 0 n l with ⟨t, hwrites, hdigits⟩
  rw [Nat.zero_add, hrow, Nat.zero_mul, Nat.min_eq_right hmin] at hdigits
  have hpos := hwrites.printed.pos
  by_cases hascii : a.showAsciiColumn = true
  · have hhex : (hexGroups a m n 0 l).2 = true ∧ Printed a.trglinebuflen l (hexGroups a m n 0 l).1 _ :=
      hexGroups_ascii hascii hg
    have hcount := hhex.2.pos
    rw [Nat.zero_add, hrow, Nat.zero_mul] at hcount
    have hlength : t.length = hexWidth a.rowlen.toNat + (n - 1) := by
      unfold hexWidth groupSpaces at hcount
      unfold hexWidth
      omega
    cases hx : hexGroups a m n 0 l with
    | mk x go =>
        rw [hx] at hhex hwrites
        obtain rfl : go = true := hhex.1
        rcases asciiGroups_writes a m n 0 (hdPrint a.trglinebuflen x [32]) with ⟨u, hcol, hu⟩
        dsimp only
        rw [if_pos hascii]
        refine ⟨_, (hwrites.trans (Writes.one a.trglinebuflen x [32])).trans hcol, ?_, ?_⟩
        · intro c hc
          rcases List.mem_append.1 hc with hc | hc
          · rcases List.mem_append.1 hc with hc | hc
            · exact hdigits.printable c hc
            · rw [List.mem_singleton.1 hc]
              exact ⟨by decide, by decide⟩
          · exact hu c hc
        · rw [List.append_assoc, ← hlength, List.take_left]
          exact hdigits.digits
  · have hplain := Bool.eq_false_iff.2 hascii
    have hhex : Printed a.trglinebuflen l (hexGroups a m n 0 l).1 _ :=
      hexGroups_plain hplain hg (by omega) (by rw [Nat.zero_add, hrow]; exact hmin)
    have hcount := hhex.pos
    rw [Nat.zero_add, Nat.zero_mul] at hcount
    have hlength : t.length ≤ hexWidth a.rowlen.toNat + (n - 1) := by
      unfold hexWidth groupSpaces at hcount
      unfold hexWidth
      omega
    refine ⟨t, ?_, hdigits.printable, by rw [List.take_of_length_le hlength]; exact hdigits.digits⟩
    cases hx : hexGroups a m n 0 l with
    | mk x go =>
        rw [hx] at hwrites
        cases go with
        | false => exact hwrites
        | true =>
            dsimp only
            rw [if_neg hascii]
            exact hwrites

end Lines

/-! ## A line in its buffer -/

/-- The digits of bytes are read as the bytes. -/
theorem readHex_digits (bytes : List UInt8) : readHex (bytes.flatMap hexText) = some bytes := by
  induction bytes with
  | nil => rfl
  | cons b bytes ih =>
      rcases Shfs.HashString.nibbles b with ⟨hhigh, hlow, hbyte⟩
      have hu := Shfs.HashString.hexDigit_hexChar _ hhigh
      have hl := Shfs.HashString.hexDigit_hexChar _ hlow
      simp only [List.flatMap_cons, hexText, List.cons_append, List.nil_append, readHex, hu, hl, ih,
        Option.bind_eq_bind, Option.bind_some, hbyte]
      rfl

/-- A text with its terminator in a buffer is the string there. -/
theorem cText_eq {mem : Bytes} {size : Nat} {t : List UInt8} (ht : ∀ i (hi : i < t.length), mem i = t[i])
    (hend : mem t.length = 0) (hne : ∀ c ∈ t, c ≠ 0) (hfit : t.length < size) : cText mem size = t := by
  rcases Nat.exists_eq_add_of_lt hfit with ⟨k, rfl⟩
  have hfirst : (List.range t.length).map mem = t := by
    apply List.ext_getElem
    · simp
    · intro i hi hi'
      simp [ht i hi']
  have hsize : t.length + k + 1 = t.length + (k + 1) := rfl
  rw [cText, hsize, List.range_add, List.map_append, hfirst, List.takeWhile_append_of_pos]
  · rw [List.range_succ_eq_map, List.map_cons, List.map_cons, Nat.add_zero, hend, List.takeWhile_cons_of_neg]
    · exact List.append_nil t
    · simp
  · intro c hc
    simpa using hne c hc

theorem Printable.ne_zero {c : UInt8} (h : Printable c) : c ≠ 0 := by
  rintro rfl
  exact absurd h.1 (by decide)

theorem Printable.ne_newline {c : UInt8} (h : Printable c) : c ≠ 10 := by
  rintro rfl
  exact absurd h.1 (by decide)

/-- `_hdline2buf` puts a line into the buffer from which the bytes are read back. -/
theorem hdline2buf_text {a : HdArgs} (h0 : a.len ≠ 0) (hg : 0 < a.groupsize.toNat)
    (hdvd : a.groupsize.toNat ∣ a.rowlen.toNat) (hassert : hdAssert a)
    (hfit : hdNeeded a ≤ a.trglinebuflen.toNat) (mem : Bytes) :
    ∃ mem' l, hdline2buf a mem = .ok (mem', l) ∧ (∀ c ∈ cText mem' a.trglinebuflen.toNat, Printable c) ∧
      readHdLine a.rowlen.toNat a.groupsize.toNat (cText mem' a.trglinebuflen.toNat) =
        some (slice a.buf 0 (min a.len.toNat a.rowlen.toNat)) := by
  rcases hdText_writes h0 hg hdvd ⟨mem, 0, [0]⟩ with ⟨t, hwrites, hprintable, hdigits⟩
  have hneeded := hdNeeded_pos a
  have hpos := hwrites.printed.pos
  have hpos' := (hdText_printed hg hdvd ⟨mem, 0, [0]⟩).pos
  simp only [Nat.zero_add] at hpos hpos'
  have hmem := (hwrites.mem (by dsimp only; omega)).2
  simp only [Nat.zero_add] at hmem
  have htext : cText (Function.update (hdText a ⟨mem, 0, [0]⟩).mem (hdText a ⟨mem, 0, [0]⟩).pos 0)
      a.trglinebuflen.toNat = t := by
    apply cText_eq
    · intro i hi
      rw [Function.update_of_ne (by omega), hmem i hi]
    · rw [hpos]
      exact Function.update_self _ _ _
    · exact fun c hc => (hprintable c hc).ne_zero
    · omega
  refine ⟨_, _, if_neg (not_not.2 hassert), ?_, ?_⟩
  · rw [htext]
    exact hprintable
  · rw [htext, readHdLine, hdigits, readHex_digits]

/-! ## A dump -/

/-- The lines of a dump of the bytes from `i` on, with `head` in front of each. -/
inductive Dumped (head : Nat → List UInt8) (rowlen groupsize : Nat) :
    Nat → List UInt8 → List (List UInt8) → Prop where
  | nil (i : Nat) : Dumped head rowlen groupsize i [] []
  | cons {i : Nat} {row bytes t : List UInt8} {lines : List (List UInt8)} (ht : ∀ c ∈ t, Printable c)
      (hread : readHdLine rowlen groupsize t = some row)
      (hrest : Dumped head rowlen groupsize (i + rowlen) bytes lines) :
      Dumped head rowlen groupsize i (row ++ bytes) ((head i ++ t) :: lines)

section Dumps

variable {head head' : Nat → List UInt8} {r g i k skip : Nat} {bytes bytes' : List UInt8}
  {lines lines' : List (List UInt8)}

/-- Each line has the address of its bytes in front. -/
theorem Dumped.address (h : Dumped head r g i bytes lines) (hk : k < lines.length) :
    head (i + k * r) <+: lines[k] := by
  induction h generalizing k with
  | nil i => simp at hk
  | cons ht hread hrest ih =>
      cases k with
      | zero => simp
      | succ k =>
          have hrec := ih (Nat.lt_of_succ_lt_succ hk)
          rw [Nat.succ_mul, Nat.add_comm (k * r) r, ← Nat.add_assoc]
          exact hrec

/-- The bytes of a dump are read back from its text. -/
theorem Dumped.read (h : Dumped head r g i bytes lines)
    (hhead : ∀ i, (head i).length = skip ∧ 10 ∉ head i) :
    readHexdump skip r g (unlines 10 lines) = some bytes := by
  have hends : ∀ line ∈ lines, 10 ∉ line := by
    induction h with
    | nil i => simp
    | @cons i row bytes t lines ht hread hrest ih =>
        intro line hline
        rcases List.mem_cons.1 hline with rfl | hline
        · rw [List.mem_append, not_or]
          exact ⟨(hhead i).2, fun hc => (ht _ hc).ne_newline rfl⟩
        · exact ih line hline
  have hrows : ∃ rows, lines.mapM (fun line => readHdLine r g (line.drop skip)) = some rows ∧
      rows.flatten = bytes := by
    clear hends
    induction h with
    | nil i => exact ⟨[], rfl, rfl⟩
    | @cons i row bytes t lines ht hread hrest ih =>
        rcases ih with ⟨rows, hrows, hflat⟩
        refine ⟨row :: rows, ?_, by rw [List.flatten_cons, hflat]⟩
        rw [List.mapM_cons, hrows, ← (hhead i).1, List.drop_left, hread]
        rfl
  rcases hrows with ⟨rows, hrows, hflat⟩
  rw [readHexdump, textLines_unlines hends]
  simp only [Option.bind_eq_bind, Option.bind_some, hrows, hflat]
  rfl

/-- A dump and the one that goes on behind it. -/
theorem Dumped.append (h : Dumped head r g i bytes lines)
    (h' : Dumped head r g (i + lines.length * r) bytes' lines') :
    Dumped head r g i (bytes ++ bytes') (lines ++ lines') := by
  induction h with
  | nil i => simpa using h'
  | @cons i row bytes t lines ht hread hrest ih =>
      rw [List.append_assoc, List.cons_append]
      refine .cons ht hread (ih ?_)
      rw [List.length_cons, Nat.succ_mul, Nat.add_comm (lines.length * r) r, ← Nat.add_assoc] at h'
      exact h'

/-- The same lines, counted from another place. -/
theorem Dumped.shift {off : Nat} (h : Dumped (fun i => head (i + off)) r g i bytes lines) :
    Dumped head r g (i + off) bytes lines := by
  induction h with
  | nil i => exact .nil _
  | cons ht hread hrest ih =>
      rw [Nat.add_right_comm] at ih
      exact .cons ht hread ih

end Dumps

/-! ## The command -/

theorem slice_window (buf : Bytes) (i n : Nat) : slice (Bytes.window buf i) 0 n = slice buf i (i + n) := by
  rw [slice, slice, Nat.add_sub_cancel_left, Nat.sub_zero, List.range'_eq_map_range, List.map_map,
    List.range'_eq_map_range, List.map_map]
  simp [Function.comp_def, Bytes.window]

/-- The lengths of rows and groups that `hexdump` has room for in its buffer. -/
structure HexdumpArgs.Fits (a : HexdumpArgs) : Prop where
  rows : a.rowlen = 16 ∨ a.rowlen = 32 ∨ a.rowlen = 64
  groups : a.groupsize = 1 ∨ a.groupsize = 2 ∨ a.groupsize = 4 ∨ a.groupsize = 8

section Command

variable {a : HexdumpArgs}

/-- The arguments of `_hdline2buf` for a row. -/
def HexdumpArgs.line (a : HexdumpArgs) (buf : Bytes) (len : Nat) : HdArgs :=
  ⟨buf, UInt64.ofNat len, a.rowlen, a.groupsize, a.showAsciiColumn, UInt64.ofNat linebufSize⟩

/-- The lengths that `Fits` names. -/
theorem rows_fit {r g : UInt64} (hr : r = 16 ∨ r = 32 ∨ r = 64) (hg : g = 1 ∨ g = 2 ∨ g = 4 ∨ g = 8) :
    (512 ≥ (3 * g * (r / g) - 1) + r / g + 1 ∧
      512 ≥ (3 * g * (r / g) - 1) + 2 * (r / g) + 1 + (g * (r / g) - 1) + 1) ∧
    r.toNat ≤ 64 ∧ 0 < r.toNat ∧ 0 < g.toNat ∧ g.toNat ∣ r.toNat := by
  rcases hr with rfl | rfl | rfl <;> rcases hg with rfl | rfl | rfl | rfl <;> decide

/-- The `ASSERT` lets the rows pass, and their lines fit. -/
theorem HexdumpArgs.Fits.line (hf : a.Fits) (buf : Bytes) (len : Nat) :
    hdAssert (a.line buf len) ∧ hdNeeded (a.line buf len) ≤ 512 ∧ 0 < a.rowlen.toNat ∧
      0 < a.groupsize.toNat ∧ a.groupsize.toNat ∣ a.rowlen.toNat := by
  rcases rows_fit hf.rows hf.groups with ⟨hassert, hle, hrow, hgroup, hdvd⟩
  refine ⟨.inr ?_, ?_, hrow, hgroup, hdvd⟩
  · show if a.showAsciiColumn then _ else _
    split
    · exact hassert.1
    · exact hassert.2
  · have hdiv := Nat.div_le_self a.rowlen.toNat a.groupsize.toNat
    unfold hdNeeded HexdumpArgs.line
    dsimp only
    split
    · omega
    · split <;> omega

/-- The loop prints the lines of a dump. -/
theorem hexdumpLoop_dumped (hf : a.Fits) (buf : Bytes) (off fuel i remaining : Nat) (linebuf : Bytes)
    (hfuel : remaining ≤ fuel) :
    ∃ lines, hexdumpLoop a buf off fuel i remaining linebuf = .ok (unlines 10 lines) ∧
      Dumped (fun i => a.prefixStr ++ a.addrType.text off i) a.rowlen.toNat a.groupsize.toNat i
        (slice buf i (i + remaining)) lines ∧
      lines.length = (remaining + a.rowlen.toNat - 1) / a.rowlen.toNat := by
  have hr := (hf.line buf 0).2.2.1
  have hend : (0 + a.rowlen.toNat - 1) / a.rowlen.toNat = 0 := Nat.div_eq_of_lt (by omega)
  induction fuel generalizing i remaining linebuf with
  | zero =>
      obtain rfl : remaining = 0 := by omega
      refine ⟨[], rfl, ?_, hend.symm⟩
      rw [slice_nil (by omega : i + 0 ≤ i)]
      exact .nil i
  | succ fuel ih =>
      rw [hexdumpLoop]
      by_cases h0 : remaining = 0
      · subst h0
        rw [if_pos rfl]
        refine ⟨[], rfl, ?_, hend.symm⟩
        rw [slice_nil (by omega : i + 0 ≤ i)]
        exact .nil i
      rw [if_neg h0]
      generalize hn : min remaining a.rowlen.toNat = n
      have hlt := a.rowlen.toNat_lt
      have hlen : (UInt64.ofNat n).toNat = n := Word.toNat_ofNat (by omega)
      rcases hf.line (Bytes.window buf i) n with ⟨hassert, hneeded, -, hg, hdvd⟩
      have hne : (a.line (Bytes.window buf i) n).len ≠ 0 := by
        intro hzero
        have hzero : UInt64.ofNat n = 0 := hzero
        rw [hzero] at hlen
        simp at hlen
        omega
      have hsize : (a.line (Bytes.window buf i) n).trglinebuflen.toNat = linebufSize := by
        show (UInt64.ofNat linebufSize).toNat = linebufSize
        decide
      rcases hdline2buf_text hne hg hdvd hassert (by rw [hsize]; exact hneeded) linebuf
        with ⟨mem', l, hline, hprintable, hread⟩
      rw [hsize] at hprintable hread
      have hrow : slice (Bytes.window buf i) 0 (min (UInt64.ofNat n).toNat a.rowlen.toNat) =
          slice buf i (i + n) := by
        rw [hlen, Nat.min_eq_left (by omega), slice_window]
      have hread : readHdLine a.rowlen.toNat a.groupsize.toNat (cText mem' linebufSize) =
          some (slice buf i (i + n)) := hrow ▸ hread
      rcases ih (i + a.rowlen.toNat) (remaining - n) mem' (by omega) with ⟨lines, hloop, hdumped, hcount⟩
      have hline : hdline2buf ⟨Bytes.window buf i, UInt64.ofNat n, a.rowlen, a.groupsize, a.showAsciiColumn,
          UInt64.ofNat linebufSize⟩ linebuf = .ok (mem', l) := hline
      refine ⟨(a.prefixStr ++ a.addrType.text off i ++ cText mem' linebufSize) :: lines, ?_, ?_, ?_⟩
      · dsimp only
        rw [hline]
        show (hexdumpLoop a buf off fuel (i + a.rowlen.toNat) (remaining - n) mem' >>= fun rest => _) = _
        rw [hloop]
        rfl
      · have hbytes : slice buf i (i + remaining) =
            slice buf i (i + n) ++ slice buf (i + a.rowlen.toNat) (i + a.rowlen.toNat + (remaining - n)) := by
          by_cases hmore : a.rowlen.toNat ≤ remaining
          · have hn' : n = a.rowlen.toNat := by omega
            rw [hn', slice_append (by omega) (by omega)]
            congr 1
            omega
          · have hn' : n = remaining := by omega
            rw [hn', slice_nil (by omega : i + a.rowlen.toNat + (remaining - remaining) ≤ i + a.rowlen.toNat),
              List.append_nil]
        rw [hbytes]
        exact .cons hprintable hread hdumped
      · rw [List.length_cons, hcount]
        by_cases hmore : a.rowlen.toNat ≤ remaining
        · have hsum : remaining + a.rowlen.toNat - 1 = remaining - n + a.rowlen.toNat - 1 + a.rowlen.toNat := by
            omega
          rw [hsum, Nat.add_div_right _ hr]
        · have hlast : remaining + a.rowlen.toNat - 1 = remaining - 1 + a.rowlen.toNat := by omega
          have hdone : remaining - n = 0 := by omega
          rw [hdone, hend, hlast, Nat.add_div_right _ hr, Nat.div_eq_of_lt (by omega)]

/-- `hexdump` prints a dump. -/
theorem hexdump_dumped (hf : a.Fits) (buf : Bytes) (len off : Nat) (linebuf : Bytes) :
    ∃ lines, hexdump a buf len off linebuf = .ok (unlines 10 lines) ∧
      Dumped (fun i => a.prefixStr ++ a.addrType.text off i) a.rowlen.toNat a.groupsize.toNat 0
        (slice buf 0 len) lines ∧
      lines.length = (len + a.rowlen.toNat - 1) / a.rowlen.toNat := by
  have hrows : a.rowlen = 16 ∨ a.rowlen = 32 ∨ a.rowlen = 64 ∨ a.rowlen = 128 := by
    rcases hf.rows with h | h | h
    · exact .inl h
    · exact .inr (.inl h)
    · exact .inr (.inr (.inl h))
  have hloop := hexdumpLoop_dumped hf buf off len 0 len linebuf (Nat.le_refl len)
  rw [Nat.zero_add] at hloop
  rw [hexdump, if_neg (not_not.2 hrows), if_neg (not_not.2 hf.groups)]
  exact hloop

end Command

end Minipython.Minios
