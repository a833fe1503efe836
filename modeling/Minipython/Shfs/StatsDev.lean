/-
# Minipython.Shfs.StatsDev — the exporter of the statistics (shfs_stats.c)

`_stats_dev_write` cuts a stream of bytes into sectors: it fills one buffer and writes it whenever it is
full. `_stats_dev_flush` writes what is in the buffer, filled up with zeros, and the stream goes on in the
same sector.

`Holding` relates the exporter to the stream that it was given. Every piece and every flush keeps it, as long
as the device takes the sectors.

The buffer has the size of a sector, and `bufPos` is the position in the stream modulo that size. A piece is
copied as far as the buffer has room, then the sector is written, and the loop goes on with the rest. A
flush writes the sector without moving on: what comes next is written again together with what the flush has
written already. So a sector may be written several times, each time with a longer part of the stream, and
the last time is what counts.

Which calls write, and how much, is arbitrary in `stats_export`, also calls of no byte. Where the device
refuses a sector the exporter goes on as if it had not; nothing is said about such a run.
-/
import Mathlib.Data.List.GetD
import Minipython.Lib.Bytes
import Minipython.Lib.Word

namespace Minipython.Shfs

open Minipython.Lib
open Minipython.Lib.Bytes (blit zeros)

/-! ## The code -/

/-- The device that the statistics are written to. `sync n sec` is what `blkdev_sync_io` answers to the
`n`-th write, of sector `sec`. Writes behind the end of the device fail, and the driver handles no devices
above `MAX_DISKSIZE`. -/
structure StatsBd where
  ssize : UInt32
  sectors : Nat
  sync : Nat → UInt64 → Int
  ssize_pos : 0 < ssize.toNat
  size_le : sectors * ssize.toNat ≤ 2 ^ 40
  past_end : ∀ n sec, sectors ≤ sec.toNat → sync n sec < 0

/-- `struct _stats_dev`, with the sectors of its device and the answers that the device has given since the
last reset. -/
structure StatsDev where
  buf : Bytes
  seek : UInt64
  flushed : UInt64
  disk : Nat → Bytes
  log : List (UInt64 × Int)

variable (bd : StatsBd)

/-- `_stats_dev_reset`. -/
def statsDevReset (d : StatsDev) : StatsDev := { d with seek := 0, flushed := 0, log := [] }

/-- `bpos`: the position in the buffer. -/
def bufPos (d : StatsDev) : UInt64 := d.seek % bd.ssize.toUInt64

/-- The sector that `_stats_dev_flush` writes. On a boundary the buffer is that of the sector before. -/
def flushSector (d : StatsDev) : UInt64 :=
  if bufPos bd d = 0 then d.seek / bd.ssize.toUInt64 - 1 else d.seek / bd.ssize.toUInt64

/-- The buffer as `_stats_dev_flush` writes it, the rest filled up with zeros. -/
def flushBuf (d : StatsDev) : Bytes :=
  if bufPos bd d = 0 then d.buf
  else blit d.buf (bufPos bd d).toNat zeros (bd.ssize.toUInt64 - bufPos bd d).toNat

/-- `_stats_dev_flush`. -/
def statsDevFlush (d : StatsDev) : Int × StatsDev :=
  if d.seek ≤ d.flushed then (0, d)
  else
    let sec := flushSector bd d
    let buf := flushBuf bd d
    let ret := bd.sync d.log.length sec
    if 0 ≤ ret then
      (ret, { d with buf := buf, disk := Function.update d.disk sec.toNat buf
                     log := d.log ++ [(sec, ret)], flushed := d.seek })
    else (ret, { d with buf := buf, log := d.log ++ [(sec, ret)] })

/-- `clen`: how much of the data goes into the buffer at once. -/
def pieceLen (data : List UInt8) (d : StatsDev) : Nat :=
  min (bd.ssize.toNat - (bufPos bd d).toNat) data.length

/-- One piece of the data is copied into the buffer. -/
def putPiece (data : List UInt8) (d : StatsDev) : StatsDev :=
  { d with
    buf := blit d.buf (bufPos bd d).toNat (fun i => data.getD i 0) (pieceLen bd data d)
    seek := d.seek + UInt64.ofNat (pieceLen bd data d) }

/-- The loop of `_stats_dev_write` over the bytes that are left. A turn takes at least one of them, so as
many turns as bytes are enough. -/
def statsDevWriteLoop : Nat → List UInt8 → StatsDev → Int × StatsDev
  | 0, _, d => (0, d)
  | turns + 1, data, d =>
      if data.length = 0 then (0, d)
      else
        let clen := pieceLen bd data d
        if (bufPos bd d).toNat + clen = bd.ssize.toNat then
          let s := statsDevFlush bd (putPiece bd data d)
          if s.1 < 0 then (s.1, { s.2 with seek := s.2.seek - UInt64.ofNat clen })
          else statsDevWriteLoop turns (data.drop clen) s.2
        else statsDevWriteLoop turns (data.drop clen) (putPiece bd data d)

/-- `_stats_dev_write`. -/
def statsDevWrite (data : List UInt8) (d : StatsDev) : Int × StatsDev :=
  statsDevWriteLoop bd data.length data d

/-! ## Runs -/

inductive StatsCall where
  | write (data : List UInt8)
  | flush
  deriving DecidableEq, Repr

/-- What a call adds to the stream. -/
def StatsCall.data : StatsCall → List UInt8
  | .write data => data
  | .flush => []

def statsCall (d : StatsDev) : StatsCall → StatsDev
  | .write data => (statsDevWrite bd data d).2
  | .flush => (statsDevFlush bd d).2

/-- The exporter after a sequence of calls, and the stream that they make. -/
def statsRun (d : StatsDev) (cs : List StatsCall) : StatsDev := cs.foldl (statsCall bd) d

def stream (cs : List StatsCall) : List UInt8 := cs.flatMap StatsCall.data

/-- The device has taken all sectors that were written. -/
def AllTaken (d : StatsDev) : Prop := ∀ w ∈ d.log, 0 ≤ w.2

/-! ## What the device should hold -/

/-- The sectors that `n` bytes take. -/
def sectorsOf (n : Nat) : Nat := (n + bd.ssize.toNat - 1) / bd.ssize.toNat

/-- The first sectors hold a stream and zeros behind it; the others are those of `disk`. -/
def Exported (disk : Nat → Bytes) (s : List UInt8) (d : StatsDev) : Prop :=
  (∀ k < sectorsOf bd s.length, ∀ j < bd.ssize.toNat,
      d.disk k j = s.getD (k * bd.ssize.toNat + j) 0) ∧
    (∀ k, sectorsOf bd s.length ≤ k → d.disk k = disk k) ∧
    ∀ w ∈ d.log, w.1.toNat < sectorsOf bd s.length

/-- The exporter has been given the stream `s`: `flushed` bytes of it are on the device, up to its current
sector at least, and the buffer holds what there is of that sector. -/
structure Holding (disk : Nat → Bytes) (s : List UInt8) (d : StatsDev) : Prop where
  seek : d.seek.toNat = s.length
  flushed_le : d.flushed.toNat ≤ s.length
  sector : (s.length - 1) / bd.ssize.toNat * bd.ssize.toNat ≤ d.flushed.toNat
  buf : ∀ j, (s.length - 1) / bd.ssize.toNat * bd.ssize.toNat + j < s.length →
    d.buf j = s.getD ((s.length - 1) / bd.ssize.toNat * bd.ssize.toNat + j) 0
  exported : Exported bd disk (s.take d.flushed.toNat) d
  room : sectorsOf bd d.flushed.toNat ≤ bd.sectors

/-- Between two calls no full sector is left in the buffer. -/
def AtRest (s : List UInt8) (d : StatsDev) : Prop :=
  s.length % bd.ssize.toNat = 0 → d.flushed.toNat = s.length

/-! ## Sectors -/

section Sectors

variable {m n k : Nat}

theorem sectorsOf_zero : sectorsOf bd 0 = 0 := by
  have hpos := bd.ssize_pos
  exact Nat.div_eq_of_lt (by omega)

theorem sectorsOf_pos (hn : 0 < n) : sectorsOf bd n = (n - 1) / bd.ssize.toNat + 1 := by
  have hsum : n + bd.ssize.toNat - 1 = n - 1 + bd.ssize.toNat := by omega
  rw [sectorsOf, hsum, Nat.add_div_right _ bd.ssize_pos]

theorem sectorsOf_mono (h : m ≤ n) : sectorsOf bd m ≤ sectorsOf bd n :=
  Nat.div_le_div_right (by omega)

theorem le_sectorsOf (h : k * bd.ssize.toNat ≤ n) : k ≤ sectorsOf bd n := by
  have hpos := bd.ssize_pos
  exact (Nat.le_div_iff_mul_le hpos).2 (by omega)

/-- The bytes fit into their sectors. -/
theorem le_sectorsOf_mul (n : Nat) : n ≤ sectorsOf bd n * bd.ssize.toNat := by
  have hpos := bd.ssize_pos
  have hdiv := Nat.div_add_mod (n + bd.ssize.toNat - 1) bd.ssize.toNat
  have hmod := Nat.mod_lt (n + bd.ssize.toNat - 1) hpos
  rw [Nat.mul_comm] at hdiv
  unfold sectorsOf
  omega

/-- The last byte is not behind its sector. -/
theorem le_lastSector (n : Nat) :
    n ≤ (n - 1) / bd.ssize.toNat * bd.ssize.toNat + bd.ssize.toNat := by
  rcases Nat.eq_zero_or_pos n with h0 | hpos
  · omega
  · have hle := le_sectorsOf_mul bd n
    rwa [sectorsOf_pos bd hpos, Nat.succ_mul] at hle

/-- The sector of the last byte as the code computes it. -/
theorem lastSector_eq (hn : 0 < n) : (if n % bd.ssize.toNat = 0 then n / bd.ssize.toNat - 1
    else n / bd.ssize.toNat) = (n - 1) / bd.ssize.toNat := by
  have hpos := bd.ssize_pos
  have hdiv := Nat.div_add_mod n bd.ssize.toNat
  have hmod := Nat.mod_lt n hpos
  rw [Nat.mul_comm] at hdiv
  generalize hq : n / bd.ssize.toNat = q at *
  symm
  split
  · rename_i h0
    obtain ⟨c, rfl⟩ : ∃ c, q = c + 1 := by
      cases q with
      | zero => omega
      | succ c => exact ⟨c, rfl⟩
    rw [Nat.succ_mul] at hdiv
    refine Nat.div_eq_of_lt_le ?_ ?_
    · rw [Nat.add_sub_cancel]
      omega
    · rw [Nat.add_sub_cancel, Nat.succ_mul]
      omega
  · refine Nat.div_eq_of_lt_le ?_ ?_
    · omega
    · rw [Nat.succ_mul]
      omega

/-- More bytes of the same sector leave the last sector where the stream was. -/
theorem lastSector_add {c : Nat} (hc : 0 < c) (h : n % bd.ssize.toNat + c ≤ bd.ssize.toNat) :
    (n + c - 1) / bd.ssize.toNat = n / bd.ssize.toNat := by
  have hdiv := Nat.div_add_mod n bd.ssize.toNat
  rw [Nat.mul_comm] at hdiv
  refine Nat.div_eq_of_lt_le ?_ ?_
  · omega
  · rw [Nat.succ_mul]
    omega

end Sectors

/-! ## The device only ever gets more answers -/

theorem flush_log (d : StatsDev) : d.log <+: (statsDevFlush bd d).2.log := by
  unfold statsDevFlush
  split
  · exact List.prefix_refl _
  · dsimp only
    split
    · exact List.prefix_append _ _
    · exact List.prefix_append _ _

theorem writeLoop_log (turns : Nat) (data : List UInt8) (d : StatsDev) :
    d.log <+: (statsDevWriteLoop bd turns data d).2.log := by
  induction turns generalizing data d with
  | zero => exact List.prefix_refl _
  | succ turns ih =>
      have hflush : d.log <+: (statsDevFlush bd (putPiece bd data d)).2.log :=
        flush_log bd (putPiece bd data d)
      rw [statsDevWriteLoop]
      split
      · exact List.prefix_refl _
      · dsimp only
        split
        · split
          · exact hflush
          · exact hflush.trans (ih _ _)
        · exact ih _ (putPiece bd data d)

theorem call_log (d : StatsDev) (c : StatsCall) : d.log <+: (statsCall bd d c).log := by
  cases c with
  | write data => exact writeLoop_log bd _ _ _
  | flush => exact flush_log bd d

theorem run_log (d : StatsDev) (cs : List StatsCall) : d.log <+: (statsRun bd d cs).log := by
  induction cs generalizing d with
  | nil => exact List.prefix_refl _
  | cons c cs ih => exact (call_log bd d c).trans (ih _)

theorem AllTaken.of_prefix {d d' : StatsDev} (h : AllTaken d') (hp : d.log <+: d'.log) : AllTaken d :=
  fun w hw => h w (hp.subset hw)

/-! ## One flush -/

section Flush

variable {bd} {disk : Nat → Bytes} {s : List UInt8} {d : StatsDev}

theorem ssize_toNat (bd : StatsBd) : bd.ssize.toUInt64.toNat = bd.ssize.toNat :=
  UInt32.toNat_toUInt64 bd.ssize

/-- The stream stays far away from the end of `seek`. -/
theorem Holding.length_le (h : Holding bd disk s d) : s.length ≤ 2 ^ 40 + bd.ssize.toNat := by
  have hcap := bd.size_le
  have hroom := Nat.mul_le_mul_right bd.ssize.toNat h.room
  have hflushed := le_sectorsOf_mul bd d.flushed.toNat
  have hlast := le_lastSector bd s.length
  have hsector := h.sector
  omega

theorem bufPos_toNat (bd : StatsBd) (h : d.seek.toNat = s.length) :
    (bufPos bd d).toNat = s.length % bd.ssize.toNat := by
  rw [bufPos, UInt64.toNat_mod, h, ssize_toNat]

theorem bufPos_eq_zero (bd : StatsBd) (h : d.seek.toNat = s.length) :
    bufPos bd d = 0 ↔ s.length % bd.ssize.toNat = 0 := by
  rw [← UInt64.toNat_inj, bufPos_toNat bd h]
  rfl

/-- It is the sector of the last byte that is written. -/
theorem flushSector_toNat (bd : StatsBd) (h : d.seek.toNat = s.length) (hpos : 0 < s.length) :
    (flushSector bd d).toNat = (s.length - 1) / bd.ssize.toNat := by
  have hdiv : (d.seek / bd.ssize.toUInt64).toNat = s.length / bd.ssize.toNat := by
    rw [UInt64.toNat_div, h, ssize_toNat]
  rw [← lastSector_eq bd hpos, flushSector]
  by_cases h0 : s.length % bd.ssize.toNat = 0
  · have hone : (1 : UInt64).toNat = 1 := rfl
    have hle := Nat.le_of_dvd hpos (Nat.dvd_of_mod_eq_zero h0)
    have hge := Nat.div_pos hle bd.ssize_pos
    rw [if_pos ((bufPos_eq_zero bd h).2 h0), if_pos h0, Word.toNat_sub (by rw [hdiv, hone]; exact hge), hdiv,
      hone]
  · rw [if_neg (mt (bufPos_eq_zero bd h).1 h0), if_neg h0, hdiv]

/-- What is written is the end of the stream, filled up with zeros. -/
theorem flushBuf_eq (h : Holding bd disk s d) (hpos : 0 < s.length) {j : Nat} (hj : j < bd.ssize.toNat) :
    flushBuf bd d j = s.getD ((s.length - 1) / bd.ssize.toNat * bd.ssize.toNat + j) 0 := by
  have hbuf := h.buf j
  have hlast := le_lastSector bd s.length
  have hstart := lastSector_eq bd hpos
  have hdiv := Nat.div_add_mod s.length bd.ssize.toNat
  have hlt := Nat.mod_lt s.length bd.ssize_pos
  have hb := bufPos_toNat bd h.seek
  rw [Nat.mul_comm] at hdiv
  unfold flushBuf
  by_cases h0 : s.length % bd.ssize.toNat = 0
  · rw [if_pos ((bufPos_eq_zero bd h.seek).2 h0)]
    have hge := Nat.div_pos (Nat.le_of_dvd hpos (Nat.dvd_of_mod_eq_zero h0)) bd.ssize_pos
    have hle := Nat.le_mul_of_pos_left bd.ssize.toNat hge
    rw [if_pos h0] at hstart
    refine hbuf ?_
    rw [← hstart, Nat.sub_mul]
    omega
  · rw [if_neg (mt (bufPos_eq_zero bd h.seek).1 h0)]
    rw [if_neg h0] at hstart
    have hfill : (bd.ssize.toUInt64 - bufPos bd d).toNat = bd.ssize.toNat - s.length % bd.ssize.toNat := by
      rw [Word.toNat_sub (by rw [ssize_toNat, hb]; omega), ssize_toNat, hb]
    rw [hfill, hb]
    by_cases hin : j < s.length % bd.ssize.toNat
    · rw [Bytes.blit_outside (Or.inl hin)]
      exact hbuf (by rw [← hstart]; omega)
    · obtain ⟨c, rfl⟩ := Nat.exists_eq_add_of_le (Nat.not_lt.1 hin)
      rw [Bytes.blit_inside (by omega), List.getD_eq_default _ _ (by rw [← hstart]; omega)]
      rfl

/-- The sector of the last byte makes the export complete if all sectors before it are there. -/
theorem exported_last {d' : StatsDev} {sec : UInt64} {ret : Int} {buf : Bytes} {f : Nat}
    (h : Exported bd disk (s.take f) d) (hf : f ≤ s.length) (hpos : 0 < s.length)
    (hstart : (s.length - 1) / bd.ssize.toNat * bd.ssize.toNat ≤ f)
    (hsec : sec.toNat = (s.length - 1) / bd.ssize.toNat)
    (hbuf : ∀ j < bd.ssize.toNat,
      buf j = s.getD ((s.length - 1) / bd.ssize.toNat * bd.ssize.toNat + j) 0)
    (hdisk : d'.disk = Function.update d.disk sec.toNat buf) (hlog : d'.log = d.log ++ [(sec, ret)]) :
    Exported bd disk s d' := by
  obtain ⟨hdone, hrest, hall⟩ := h
  have hcount := sectorsOf_pos bd hpos
  have hmono := sectorsOf_mono bd hf
  have hbefore := le_sectorsOf bd hstart
  rw [List.length_take, Nat.min_eq_left hf] at hdone hrest hall
  refine ⟨fun k hk j hj => ?_, fun k hk => ?_, fun w hw => ?_⟩
  · rw [hdisk]
    by_cases hlast : k = sec.toNat
    · rw [hlast, Function.update_self, hbuf j hj, hsec]
    · have hk' : k + 1 ≤ (s.length - 1) / bd.ssize.toNat := by omega
      have hend := Nat.mul_le_mul_right bd.ssize.toNat hk'
      rw [Nat.succ_mul] at hend
      rw [Function.update_of_ne hlast, hdone k (by omega) j hj]
      simp only [List.getD_eq_getElem?_getD, List.getElem?_take]
      rw [if_pos (by omega)]
  · rw [hdisk, Function.update_of_ne (by omega)]
    exact hrest k (by omega)
  · rw [hlog, List.mem_append] at hw
    rcases hw with hw | hw
    · have hlt := hall w hw
      omega
    · obtain rfl := List.mem_singleton.1 hw
      rw [hcount, ← hsec]
      exact Nat.lt_succ_self _

/-- A flush brings the whole stream to the device. -/
theorem holding_flush (h : Holding bd disk s d) (hok : AllTaken (statsDevFlush bd d).2) :
    Holding bd disk s (statsDevFlush bd d).2 ∧ (statsDevFlush bd d).2.flushed.toNat = s.length ∧
      0 ≤ (statsDevFlush bd d).1 := by
  have hfl := h.flushed_le
  unfold statsDevFlush at hok ⊢
  by_cases hle : d.seek ≤ d.flushed
  · rw [if_pos hle]
    have hle := UInt64.le_iff_toNat_le.1 hle
    rw [h.seek] at hle
    exact ⟨h, Nat.le_antisymm hfl hle, Int.le_refl 0⟩
  rw [if_neg hle] at hok ⊢
  dsimp only at hok ⊢
  have hlt := mt UInt64.le_iff_toNat_le.2 hle
  rw [h.seek] at hlt
  have hpos : 0 < s.length := by omega
  have hsec := flushSector_toNat bd h.seek hpos
  by_cases hret : 0 ≤ bd.sync d.log.length (flushSector bd d)
  · rw [if_pos hret] at hok ⊢
    have hinside : (s.length - 1) / bd.ssize.toNat < bd.sectors := by
      by_contra hcon
      have hfail := bd.past_end d.log.length (flushSector bd d) (by rw [hsec]; omega)
      omega
    refine ⟨⟨h.seek, ?_, ?_, fun j hj => ?_, ?_, ?_⟩, h.seek, hret⟩
    · exact Nat.le_of_eq h.seek
    · show _ ≤ d.seek.toNat
      rw [h.seek]
      exact (Nat.div_mul_le_self _ _).trans (Nat.sub_le _ _)
    · show flushBuf bd d j = _
      exact flushBuf_eq h hpos (by have := le_lastSector bd s.length; omega)
    · show Exported bd disk (s.take d.seek.toNat) _
      rw [h.seek, List.take_length]
      exact exported_last h.exported hfl hpos h.sector hsec (fun j hj => flushBuf_eq h hpos hj) rfl rfl
    · show sectorsOf bd d.seek.toNat ≤ _
      rw [h.seek, sectorsOf_pos bd hpos]
      exact hinside
  · rw [if_neg hret] at hok
    exact absurd (hok _ (List.mem_append_right _ (List.mem_singleton.2 rfl))) hret

end Flush

/-! ## One piece -/

section Piece

variable {bd} {disk : Nat → Bytes} {s data : List UInt8} {d : StatsDev}

theorem pieceLen_pos (bd : StatsBd) (h : d.seek.toNat = s.length) (hne : data.length ≠ 0) :
    0 < pieceLen bd data d ∧ s.length % bd.ssize.toNat + pieceLen bd data d ≤ bd.ssize.toNat ∧
      pieceLen bd data d ≤ data.length := by
  have hlt := Nat.mod_lt s.length bd.ssize_pos
  unfold pieceLen
  rw [bufPos_toNat bd h]
  omega

/-- The buffer takes the next piece of the stream. -/
theorem holding_putPiece (h : Holding bd disk s d) (hrest : AtRest bd s d) (hne : data.length ≠ 0) :
    Holding bd disk (s ++ data.take (pieceLen bd data d)) (putPiece bd data d) := by
  obtain ⟨hpos, hfit, hle⟩ := pieceLen_pos bd h.seek hne
  have hfl := h.flushed_le
  have hlen := h.length_le
  have hb := bufPos_toNat bd h.seek
  have hdiv := Nat.div_add_mod s.length bd.ssize.toNat
  have hmod := Nat.mod_lt s.length bd.ssize_pos
  have hs32 := bd.ssize.toNat_lt
  rw [Nat.mul_comm] at hdiv
  have hlength : (s ++ data.take (pieceLen bd data d)).length = s.length + pieceLen bd data d := by
    rw [List.length_append, List.length_take, Nat.min_eq_left hle]
  -- the piece stays in the sector where the stream was
  have hsector : (s.length + pieceLen bd data d - 1) / bd.ssize.toNat = s.length / bd.ssize.toNat :=
    lastSector_add bd hpos hfit
  have hsame : 0 < s.length % bd.ssize.toNat →
      (s.length - 1) / bd.ssize.toNat = s.length / bd.ssize.toNat := by
    intro hmid
    have hlast := lastSector_eq bd (n := s.length) (Nat.pos_of_ne_zero fun h0 => by
      rw [h0, Nat.zero_mod] at hmid
      exact absurd hmid (Nat.lt_irrefl 0))
    rw [if_neg (Nat.ne_of_gt hmid)] at hlast
    exact hlast.symm
  refine ⟨?_, ?_, ?_, fun j hj => ?_, ?_, h.room⟩
  · have hclen : (UInt64.ofNat (pieceLen bd data d)).toNat = pieceLen bd data d :=
      Word.toNat_ofNat (by omega)
    rw [hlength]
    show (d.seek + UInt64.ofNat _).toNat = _
    rw [Word.toNat_add (by rw [hclen, h.seek]; omega), hclen, h.seek]
  · rw [hlength]
    exact hfl.trans (Nat.le_add_right _ _)
  · rw [hlength, hsector]
    show _ ≤ d.flushed.toNat
    rcases Nat.eq_zero_or_pos (s.length % bd.ssize.toNat) with h0 | hmid
    · rw [hrest h0]
      omega
    · rw [← hsame hmid]
      exact h.sector
  · rw [hlength, hsector] at hj
    rw [hlength, hsector]
    show blit d.buf (bufPos bd d).toNat (fun i => data.getD i 0) (pieceLen bd data d) j = _
    rw [hb]
    by_cases hold : j < s.length % bd.ssize.toNat
    · rw [Bytes.blit_outside (Or.inl hold), List.getD_append _ _ _ _ (by omega), ← hsame (by omega)]
      refine h.buf j ?_
      rw [hsame (by omega)]
      omega
    · obtain ⟨c, rfl⟩ := Nat.exists_eq_add_of_le (Nat.not_lt.1 hold)
      rw [Bytes.blit_inside (by omega), List.getD_append_right _ _ _ _ (by omega)]
      have hidx : s.length / bd.ssize.toNat * bd.ssize.toNat + (s.length % bd.ssize.toNat + c) -
          s.length = c := by omega
      rw [hidx]
      simp only [List.getD_eq_getElem?_getD, List.getElem?_take]
      rw [if_pos (by omega)]
  · show Exported bd disk ((s ++ _).take d.flushed.toNat) _
    rw [List.take_append_of_le_length hfl]
    exact h.exported

/-- A whole write, piece by piece. -/
theorem holding_writeLoop {turns : Nat} (h : Holding bd disk s d) (hrest : AtRest bd s d)
    (hturns : data.length ≤ turns) (hok : AllTaken (statsDevWriteLoop bd turns data d).2) :
    Holding bd disk (s ++ data) (statsDevWriteLoop bd turns data d).2 ∧
      AtRest bd (s ++ data) (statsDevWriteLoop bd turns data d).2 ∧
      (statsDevWriteLoop bd turns data d).1 = 0 := by
  induction turns generalizing s data d with
  | zero =>
      obtain rfl := List.length_eq_zero_iff.1 (Nat.le_zero.1 hturns)
      rw [List.append_nil]
      exact ⟨h, hrest, rfl⟩
  | succ turns ih =>
      rw [statsDevWriteLoop] at hok ⊢
      by_cases h0 : data.length = 0
      · obtain rfl := List.length_eq_zero_iff.1 h0
        rw [if_pos h0, List.append_nil]
        exact ⟨h, hrest, rfl⟩
      rw [if_neg h0] at hok ⊢
      dsimp only at hok ⊢
      obtain ⟨hpos, hfit, hle⟩ := pieceLen_pos bd h.seek h0
      have hput := holding_putPiece h hrest h0
      have hsplit : s ++ data = (s ++ data.take (pieceLen bd data d)) ++ data.drop (pieceLen bd data d) := by
        rw [List.append_assoc, List.take_append_drop]
      have hleft : (data.drop (pieceLen bd data d)).length ≤ turns := by
        rw [List.length_drop]
        omega
      rw [hsplit]
      by_cases hfull : (bufPos bd d).toNat + pieceLen bd data d = bd.ssize.toNat
      · rw [if_pos hfull] at hok ⊢
        -- the device takes the full sector, as it takes all
        have htaken : AllTaken (statsDevFlush bd (putPiece bd data d)).2 := by
          refine hok.of_prefix ?_
          split
          · exact List.prefix_refl _
          · exact writeLoop_log bd _ _ _
        obtain ⟨hflush, hall, hret⟩ := holding_flush hput htaken
        rw [if_neg (Int.not_lt.2 hret)] at hok ⊢
        exact ih hflush (fun _ => hall) hleft hok
      · rw [if_neg hfull] at hok ⊢
        refine ih hput (fun hmod => ?_) hleft hok
        -- the buffer has room left, so the stream is within a sector
        rw [bufPos_toNat bd h.seek] at hfull
        rw [List.length_append, List.length_take, Nat.min_eq_left hle, Nat.add_mod,
          Nat.mod_eq_of_lt (a := pieceLen bd data d) (by omega), Nat.mod_eq_of_lt (by omega)] at hmod
        omega

end Piece

/-! ## Runs of the exporter -/

section Runs

variable {bd} {disk : Nat → Bytes} {s : List UInt8} {d : StatsDev}

theorem holding_call (c : StatsCall) (h : Holding bd disk s d) (hrest : AtRest bd s d)
    (hok : AllTaken (statsCall bd d c)) :
    Holding bd disk (s ++ c.data) (statsCall bd d c) ∧ AtRest bd (s ++ c.data) (statsCall bd d c) := by
  cases c with
  | write data =>
      obtain ⟨h1, h2, -⟩ := holding_writeLoop h hrest (Nat.le_refl _) hok
      exact ⟨h1, h2⟩
  | flush =>
      obtain ⟨h1, h2, -⟩ := holding_flush h hok
      show Holding bd disk (s ++ []) _ ∧ AtRest bd (s ++ []) _
      rw [List.append_nil]
      exact ⟨h1, fun _ => h2⟩

theorem holding_run (cs : List StatsCall) (h : Holding bd disk s d) (hrest : AtRest bd s d)
    (hok : AllTaken (statsRun bd d cs)) :
    Holding bd disk (s ++ stream cs) (statsRun bd d cs) ∧ AtRest bd (s ++ stream cs) (statsRun bd d cs) := by
  induction cs generalizing s d with
  | nil =>
      show Holding bd disk (s ++ []) d ∧ AtRest bd (s ++ []) d
      rw [List.append_nil]
      exact ⟨h, hrest⟩
  | cons c cs ih =>
      have hone := holding_call c h hrest (hok.of_prefix (run_log bd _ cs))
      have hall := ih hone.1 hone.2 hok
      rw [List.append_assoc] at hall
      exact hall

/-- After a reset nothing is held. -/
theorem holding_reset (bd : StatsBd) (d : StatsDev) :
    Holding bd d.disk [] (statsDevReset d) ∧ AtRest bd [] (statsDevReset d) := by
  refine ⟨⟨rfl, Nat.le_refl _, ?_, fun j hj => absurd hj (Nat.not_lt_zero _), ⟨?_, fun _ _ => rfl, ?_⟩, ?_⟩,
    fun _ => rfl⟩
  · show (0 - 1) / bd.ssize.toNat * bd.ssize.toNat ≤ 0
    rw [Nat.zero_sub, Nat.zero_div, Nat.zero_mul]
  · intro k hk
    rw [List.take_nil, List.length_nil, sectorsOf_zero bd] at hk
    exact absurd hk (Nat.not_lt_zero k)
  · exact fun w hw => absurd hw List.not_mem_nil
  · show sectorsOf bd 0 ≤ _
    rw [sectorsOf_zero bd]
    exact Nat.zero_le _

end Runs

/-- After a reset, any writes and flushes and a last flush, all taken by the device, its first sectors hold
the stream and zeros up to the end of the last sector, and no other sector has been written. The calls are
any, of any lengths. A sector that is written again is written with a longer part of the same stream. -/
theorem stats_export (d : StatsDev) (cs : List StatsCall)
    (hok : AllTaken (statsRun bd (statsDevReset d) (cs ++ [.flush]))) :
    Exported bd d.disk (stream cs) (statsRun bd (statsDevReset d) (cs ++ [.flush])) := by
  obtain ⟨hstart, hrest⟩ := holding_reset bd d
  have hlast : statsRun bd (statsDevReset d) (cs ++ [.flush]) =
      (statsDevFlush bd (statsRun bd (statsDevReset d) cs)).2 := by
    rw [statsRun, List.foldl_append]
    rfl
  rw [hlast] at hok ⊢
  obtain ⟨hheld, -⟩ := holding_run cs hstart hrest (hok.of_prefix (flush_log bd _))
  obtain ⟨hflushed, hall, -⟩ := holding_flush hheld hok
  have hexp := hflushed.exported
  rw [hall, List.take_length, List.nil_append] at hexp
  exact hexp

/-- A small device that takes all sectors it has. -/
def smallBd : StatsBd where
  ssize := 4
  sectors := 3
  sync _ sec := if sec < 3 then 0 else -1
  ssize_pos := by decide
  size_le := by decide
  past_end n sec h := by
    have hnot : ¬sec < 3 := fun hlt => absurd (UInt64.lt_iff_toNat_lt.1 hlt) (Nat.not_lt.2 h)
    rw [if_neg hnot]
    decide

/-- A flush within the first sector, a write across two, and the last flush on a boundary. -/
theorem stats_export_small :
    Exported smallBd (fun _ _ => 7) [1, 2, 3, 4, 5, 6, 7, 8]
      (statsRun smallBd (statsDevReset ⟨fun _ => 9, 5, 1, fun _ _ => 7, []⟩)
        [.write [1, 2, 3], .flush, .write [4, 5, 6, 7, 8], .flush]) :=
  stats_export smallBd ⟨fun _ => 9, 5, 1, fun _ _ => 7, []⟩
    [.write [1, 2, 3], .flush, .write [4, 5, 6, 7, 8]] (by unfold AllTaken; decide)

end Minipython.Shfs
