/-
# Minipython.Minios.Blkdev — requests to block devices (blkdev.h, blkdev.c, diskio.c)

`blkdev_async_io` and `blkdev_sync_io` make the same three checks in front of a request: the mode of the
device, the number of bytes, and the alignment of the buffer. What passes them is handed to the driver, which
takes a limited number of segments. FatFs goes through `disk_read` and `disk_write`, which allocate a buffer
that is aligned to sectors and leave the checks to `blkdev_sync_io`.

The driver needs a segment for each page that the buffer touches. The check counts whole pages in the number
of bytes, rounded down, and in 64 bits that may wrap. So a request of eleven pages and a part of one passes,
and so does one of eleven pages that begins within a page: both touch twelve. `request_pages_iff` says for
every request when nobody can hand it over although it does not fit: if the checks refuse it, or if the bytes
from the start of its first page on are those of eleven pages at most.

Error numbers are those of Linux, and pages have 4096 bytes.
-/
import Minipython.Minios.Mempool

namespace Minipython.Minios

/-! ## Constants -/

def enxio : Int := 6
def eagain : Int := 11
def enomem : Int := 12
def eacces : Int := 13
def ebusy : Int := 16
def enodev : Int := 19
def einval : Int := 22

/-- `PAGE_SIZE`. -/
def pageSize : UInt64 := 4096

/-- `BLKIF_MAX_SEGMENTS_PER_REQUEST`. -/
def blkifMaxSegmentsPerRequest : UInt64 := 11

/-! ## Requests -/

/-- The bits of a mode that are looked at: `O_WRONLY`, `O_RDWR` and `O_EXCL`. -/
structure OpenMode where
  wronly : Bool
  rdwr : Bool
  excl : Bool
  deriving DecidableEq, Repr

/-- What is used of `struct blkfront_info`. -/
structure BlkfrontInfo where
  sectorSize : UInt32
  mode : OpenMode
  deriving DecidableEq, Repr

/-- `blkdev_ssize`, in the 64 bits that it is multiplied in. -/
def blkdevSsize (info : BlkfrontInfo) : UInt64 := info.sectorSize.toUInt64

/-- What a caller asks for, with `buffer` as a number. -/
structure IoArgs where
  start : UInt64
  len : UInt64
  write : Bool
  buffer : UInt64
  deriving DecidableEq, Repr

/-- `struct blkfront_aiocb`: what the driver is handed. -/
structure Aiocb where
  buf : UInt64
  offset : UInt64
  nbytes : UInt64
  deriving DecidableEq, Repr

/-- The checks of `blkdev_async_io` and `blkdev_sync_io`: the value that they return if one fails. -/
def blkdevIoCheck (info : BlkfrontInfo) (a : IoArgs) : Option Int :=
  if a.write = true ∧ ¬ (info.mode.wronly = true ∨ info.mode.rdwr = true) then some (-eacces)
  else if a.len * blkdevSsize info / pageSize > blkifMaxSegmentsPerRequest then some (-enxio)
  else if a.buffer &&& (blkdevSsize info - 1) ≠ 0 then some (-einval)
  else none

/-- The control block that `blkdev_async_io_nocheck` fills in. -/
def blkdevAiocb (info : BlkfrontInfo) (a : IoArgs) : Aiocb where
  buf := a.buffer
  offset := a.start * blkdevSsize info
  nbytes := a.len * blkdevSsize info

/-- What `blkdev_async_io` hands to the driver once it has a request object, or the value it returns. -/
def asyncIoAiocb (info : BlkfrontInfo) (a : IoArgs) : Except Int Aiocb :=
  match blkdevIoCheck info a with
  | some e => .error e
  | none => .ok (blkdevAiocb info a)

/-- The same of `blkdev_sync_io`, which goes through the other without the checks. -/
def syncIoAiocb (info : BlkfrontInfo) (a : IoArgs) : Except Int Aiocb :=
  match blkdevIoCheck info a with
  | some e => .error e
  | none => .ok (blkdevAiocb info a)

/-- `disk_read`, with `_xmalloc` as a function of size and alignment. The size is computed in 32 bits. -/
def diskReadAiocb (info : BlkfrontInfo) (xmalloc : UInt64 → UInt32 → UInt64) (sector count : UInt32) :
    Except Int Aiocb :=
  let slen := (count * info.sectorSize).toUInt64
  let iobuf := xmalloc slen info.sectorSize
  syncIoAiocb info ⟨sector.toUInt64, count.toUInt64, false, iobuf⟩

/-- `disk_write`, likewise. -/
def diskWriteAiocb (info : BlkfrontInfo) (xmalloc : UInt64 → UInt32 → UInt64) (sector count : UInt32) :
    Except Int Aiocb :=
  let slen := (count * info.sectorSize).toUInt64
  let iobuf := xmalloc slen info.sectorSize
  syncIoAiocb info ⟨sector.toUInt64, count.toUInt64, true, iobuf⟩

/-! ## Pages -/

/-- A byte of `[buffer, buffer + n)` is in the page. -/
def Touches (buffer n page : Nat) : Prop := ∃ i < n, (buffer + i) / pageSize.toNat = page

instance (buffer n page : Nat) : Decidable (Touches buffer n page) :=
  inferInstanceAs (Decidable (∃ i, i < n ∧ _))

/-- The pages that `[buffer, buffer + n)` touches, from the first one on. -/
def pagesTouched (buffer n : Nat) : Nat :=
  if n = 0 then 0 else (buffer + n - 1) / pageSize.toNat - buffer / pageSize.toNat + 1

/-- The pages touched are as many in a row. -/
theorem touches_iff {buffer n page : Nat} : Touches buffer n page ↔
    buffer / pageSize.toNat ≤ page ∧ page < buffer / pageSize.toNat + pagesTouched buffer n := by
  have hp : pageSize.toNat = 4096 := rfl
  unfold Touches pagesTouched
  rw [hp]
  by_cases hn : n = 0
  · rw [if_pos hn, hn]
    constructor
    · rintro ⟨i, hi, -⟩
      omega
    · rintro ⟨h1, h2⟩
      omega
  · rw [if_neg hn]
    constructor
    · rintro ⟨i, hi, rfl⟩
      omega
    · rintro ⟨h1, h2⟩
      -- the first byte of the page, or of the buffer
      by_cases h : page = buffer / 4096
      · exact ⟨0, by omega, by omega⟩
      · exact ⟨page * 4096 - buffer, by omega, by omega⟩

/-- A buffer fits into eleven pages if its bytes do, counted from the start of the first page. -/
theorem pagesTouched_le {buffer n k : Nat} :
    pagesTouched buffer n ≤ k ↔ n = 0 ∨ buffer % pageSize.toNat + n ≤ k * pageSize.toNat := by
  have hp : pageSize.toNat = 4096 := rfl
  unfold pagesTouched
  rw [hp]
  by_cases hn : n = 0
  · rw [if_pos hn]
    exact ⟨fun _ => .inl hn, fun _ => Nat.zero_le k⟩
  · rw [if_neg hn]
    constructor
    · intro hle
      exact .inr (by omega)
    · rintro (h0 | hle)
      · exact absurd h0 hn
      · omega

/-! ## The check -/

/-- The sector sizes in question: powers of two from 512 to 4096. -/
def SectorSizeOk (ssize : Nat) : Prop := ∃ k, 9 ≤ k ∧ k ≤ 12 ∧ ssize = 2 ^ k

/-- The pages of a request fit into the segments of a device. -/
def SegmentsFit (info : BlkfrontInfo) (a : IoArgs) : Prop :=
  pagesTouched a.buffer.toNat (a.len.toNat * info.sectorSize.toNat) ≤ blkifMaxSegmentsPerRequest.toNat

/-- The bytes of a request, from the start of the first page on, are those of eleven pages at most. -/
def BytesFit (info : BlkfrontInfo) (a : IoArgs) : Prop :=
  a.len = 0 ∨ a.buffer.toNat % 4096 + a.len.toNat * info.sectorSize.toNat ≤ 11 * 4096

theorem segmentsFit_iff {info : BlkfrontInfo} {a : IoArgs} (hs : SectorSizeOk info.sectorSize.toNat) :
    SegmentsFit info a ↔ BytesFit info a := by
  have hpos : 0 < info.sectorSize.toNat := by
    rcases hs with ⟨k, -, -, hk⟩
    rw [hk]
    exact Nat.two_pow_pos k
  unfold SegmentsFit BytesFit
  rw [pagesTouched_le, Nat.mul_eq_zero]
  have hlen : a.len.toNat = 0 ↔ a.len = 0 := by
    rw [← UInt64.toNat_inj]
    rfl
  have hno : ¬ info.sectorSize.toNat = 0 := Nat.ne_of_gt hpos
  simp only [hno, or_false, hlen]
  exact Iff.rfl

/-- A function that hands requests to the driver. -/
inductive Caller where
  | asyncIo
  | syncIo
  | diskRead
  | diskWrite

/-- The function hands the request `a` to the driver as `cb`. FatFs has it in a buffer from `_xmalloc`. -/
def HandsOver (info : BlkfrontInfo) (a : IoArgs) (cb : Aiocb) : Caller → Prop
  | .asyncIo => asyncIoAiocb info a = .ok cb
  | .syncIo => syncIoAiocb info a = .ok cb
  | .diskRead => ∃ xmalloc sector count, diskReadAiocb info xmalloc sector count = .ok cb ∧
      a = ⟨sector.toUInt64, count.toUInt64, false, xmalloc (count * info.sectorSize).toUInt64 info.sectorSize⟩
  | .diskWrite => ∃ xmalloc sector count, diskWriteAiocb info xmalloc sector count = .ok cb ∧
      a = ⟨sector.toUInt64, count.toUInt64, true, xmalloc (count * info.sectorSize).toUInt64 info.sectorSize⟩

section HandsOver

variable {info : BlkfrontInfo} {a : IoArgs} {cb : Aiocb}

theorem asyncIoAiocb_ok (h : asyncIoAiocb info a = .ok cb) :
    blkdevIoCheck info a = none ∧ cb = blkdevAiocb info a := by
  unfold asyncIoAiocb at h
  cases hcheck : blkdevIoCheck info a with
  | some e =>
      rw [hcheck] at h
      cases h
  | none =>
      rw [hcheck] at h
      exact ⟨rfl, (Except.ok.inj h).symm⟩

/-- Whoever hands a request over has made the checks. -/
theorem HandsOver.checked {caller : Caller} (h : HandsOver info a cb caller) :
    blkdevIoCheck info a = none ∧ cb = blkdevAiocb info a := by
  cases caller with
  | asyncIo => exact asyncIoAiocb_ok h
  | syncIo => exact asyncIoAiocb_ok h
  | diskRead =>
      rcases h with ⟨xmalloc, sector, count, h, rfl⟩
      exact asyncIoAiocb_ok h
  | diskWrite =>
      rcases h with ⟨xmalloc, sector, count, h, rfl⟩
      exact asyncIoAiocb_ok h

/-- What the checks leave of the number of bytes: less than twelve pages, in 64 bits. -/
theorem blkdevIoCheck_bytes (h : blkdevIoCheck info a = none) :
    (a.len * blkdevSsize info).toNat < 12 * 4096 := by
  unfold blkdevIoCheck at h
  split at h
  · cases h
  · split at h
    · cases h
    · rename_i hle
      have hle : a.len * blkdevSsize info / pageSize ≤ blkifMaxSegmentsPerRequest := UInt64.not_lt.1 hle
      rw [UInt64.le_iff_toNat_le, UInt64.toNat_div] at hle
      have hdiv : (a.len * blkdevSsize info).toNat / 4096 ≤ 11 := hle
      omega

/-- What passes the checks is handed over. -/
theorem handsOver_async (h : blkdevIoCheck info a = none) : HandsOver info a (blkdevAiocb info a) .asyncIo := by
  show asyncIoAiocb info a = _
  unfold asyncIoAiocb
  rw [h]

/-- The check of the request size, for every request. What is handed over, by whomever, has less than twelve
pages of bytes. Whoever hands it over, its buffer touches eleven pages at most, exactly if the checks refuse it
or the bytes from the start of its first page on are those of eleven pages at most. -/
theorem request_pages_iff (info : BlkfrontInfo) (a : IoArgs) (hs : SectorSizeOk info.sectorSize.toNat) :
    (∀ cb caller, HandsOver info a cb caller → cb.buf = a.buffer ∧ cb.nbytes.toNat < 12 * 4096) ∧
      ((∀ cb caller, HandsOver info a cb caller → SegmentsFit info a) ↔
        blkdevIoCheck info a ≠ none ∨ BytesFit info a) := by
  constructor
  · intro cb caller h
    rcases h.checked with ⟨hcheck, rfl⟩
    exact ⟨rfl, blkdevIoCheck_bytes hcheck⟩
  · constructor
    · intro hall
      by_cases hcheck : blkdevIoCheck info a = none
      · exact Or.inr ((segmentsFit_iff hs).1 (hall _ _ (handsOver_async hcheck)))
      · exact Or.inl hcheck
    · rintro (hrefused | hfit) cb caller h
      · exact absurd h.checked.1 hrefused
      · exact (segmentsFit_iff hs).2 hfit

/-- A device with 512-byte sectors. -/
def smallSectors : BlkfrontInfo := ⟨512, ⟨false, true, false⟩⟩

/-- A read of eleven pages at the start of a page is handed over, and fits. -/
theorem request_pages_iff_eleven :
    blkdevIoCheck smallSectors ⟨0, 88, false, 4096⟩ = none ∧
    ∀ cb caller, HandsOver smallSectors ⟨0, 88, false, 4096⟩ cb caller →
      SegmentsFit smallSectors ⟨0, 88, false, 4096⟩ :=
  ⟨rfl, (request_pages_iff smallSectors ⟨0, 88, false, 4096⟩ ⟨9, by decide, by decide, by decide⟩).2.2
    (Or.inr (Or.inr (by decide)))⟩

/-- FatFs reads 95 sectors of 512 bytes, which touch twelve pages. -/
theorem guard_accepts_twelve_pages :
    ¬ ∀ (info : BlkfrontInfo) (a : IoArgs) (cb : Aiocb) (caller : Caller),
      SectorSizeOk info.sectorSize.toNat → HandsOver info a cb caller → SegmentsFit info a := by
  intro hall
  have hfit := hall smallSectors ⟨0, 95, false, 4096⟩ (blkdevAiocb smallSectors ⟨0, 95, false, 4096⟩) .diskRead
    ⟨9, by decide, by decide, by decide⟩ ⟨fun _ _ => 4096, 0, 95, rfl, rfl⟩
  revert hfit
  unfold SegmentsFit
  decide

end HandsOver

end Minipython.Minios
