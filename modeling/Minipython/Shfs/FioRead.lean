/-
# Minipython.Shfs.FioRead — reading files (shfs_fio.c)

The four readers are one loop over the chunks of a file; they differ in how a chunk is read, with or
without the cache and with or without `schedule()`. How the read of a chunk ends comes in from outside,
turn by turn, so the loop records what it copies from where.

`fioLoop_copies` and `fioLoop_buf` say what one run of the loop does: which chunks it copies from, and what
the buffer holds when it is through. The range check in front of the loop is made with a sum of 64 bits,
and so is the address of the first chunk; `fio_bounds_iff` is when that does no harm.

The check compares the end of the range as a number of 64 bits with the length of the file. An offset and a
length whose sum leaves 64 bits pass it, and the loop then copies what lies behind the file until a read
fails. `DirectFits` and `CachedFits` exclude that, and an entry whose chunks leave 64 bits. They differ in
one respect: a cached read of address 0 or of one behind the volume is refused, so there the loop ends at
its first chunk.

`Bounded` asks for every outcome of the chunk reads at once: nothing is copied from outside the container of
the file, and a range that the file does not have gives `-EINVAL`. What a chunk contains is left to
`CacheRead` and `ShellRead`, where the reads are those of the cache.
-/
import Minipython.Shfs.Volume

namespace Minipython.Shfs

open Minipython.Lib

/-! ## The readers -/

/-- A negative return value. -/
abbrev ErrRet := {r : Int // r < 0}

namespace ErrRet

/-- `-EIO`. -/
def eio : ErrRet := ⟨-5, by decide⟩
/-- `-ENOMEM`. -/
def enomem : ErrRet := ⟨-12, by decide⟩
/-- `-EINVAL`. -/
def einval : ErrRet := ⟨-22, by decide⟩

end ErrRet

/-- How the read of a chunk ends: with an error, or with what the chunk buffer holds then. -/
abbrev ChunkRead := Except ErrRet Bytes

/-- `shfs_memcpy` of `len` bytes of the chunk with the address `chunk`, from its byte `off` on, to
`buf + bufOff`. -/
structure ChunkCopy where
  chunk : Nat
  off : Nat
  bufOff : Nat
  len : Nat
  deriving DecidableEq, Repr

/-- What a reader has done so far. -/
structure Reading where
  buf : Bytes
  copies : List ChunkCopy

/-- One `shfs_memcpy` from the chunk buffer `chk`. -/
def Reading.copy (r : Reading) (chk : Bytes) (k : ChunkCopy) : Reading where
  buf := Bytes.blit r.buf k.bufOff (Bytes.window chk k.off) k.len
  copies := r.copies ++ [k]

/-- `shfs_fio_size`. -/
def shfsFioSize (e : Hentry) : Nat := if e.isLink then 0 else e.len

/-- `shfs_volchk_foff`. -/
def shfsVolchkFoff (chunksize : Nat) (e : Hentry) (foff : Nat) : Nat :=
  wrap64 (wrap64 (e.offset + foff) / chunksize + e.chunk)

/-- `shfs_volchkoff_foff`. -/
def shfsVolchkoffFoff (chunksize : Nat) (e : Hentry) (foff : Nat) : Nat :=
  wrap64 (e.offset + foff) % chunksize

/-- `while (left)` of the readers, for at most `fuel` turns; `read i c` is the read of chunk `c` in the
turn `i`. -/
def fioLoop (chunksize : Nat) (read : Nat → Nat → ChunkRead) :
    Nat → Nat → Nat → Nat → Nat → Nat → Reading → Int × Reading
  | 0, _, _, _, _, _, r => (0, r)
  | fuel + 1, i, chkOff, bytOff, bufOff, left, r =>
      if left = 0 then (0, r)
      else
        match read i chkOff with
        | .error e => (e, r)
        | .ok chk =>
            let rlen := min (wrap64 (chunksize + u64Size - bytOff)) left
            fioLoop chunksize read fuel (i + 1) (wrap64 (chkOff + 1)) 0 (bufOff + rlen) (left - rlen)
              (r.copy chk ⟨chkOff, bytOff, bufOff, rlen⟩)

/-- A reader; `mem` is the outcome of its allocations. -/
def fioReader (chunksize : Nat) (e : Hentry) (mem : Bool) (read : Nat → Nat → ChunkRead)
    (offset len : Nat) (buf : Bytes) : Int × Reading :=
  if e.isLink then (ErrRet.einval, ⟨buf, []⟩)
  else if e.len < offset ∨ e.len < wrap64 (offset + len) then (ErrRet.einval, ⟨buf, []⟩)
  else if !mem then (ErrRet.enomem, ⟨buf, []⟩)
  else fioLoop chunksize read len 0 (shfsVolchkFoff chunksize e offset)
    (shfsVolchkoffFoff chunksize e offset) 0 len ⟨buf, []⟩

/-- `shfs_fio_read`, with its `shfs_read_chunk`. -/
def shfsFioRead (conf : VolConf) (e : Hentry) (mem : Bool) (shfsReadChunk : Nat → Nat → ChunkRead)
    (offset len : Nat) (buf : Bytes) : Int × Reading :=
  fioReader conf.geom.chunksize e mem shfsReadChunk offset len buf

/-- `shfs_fio_read_nosched`, with its `shfs_read_chunk_nosched`. -/
def shfsFioReadNosched (conf : VolConf) (e : Hentry) (mem : Bool)
    (shfsReadChunkNosched : Nat → Nat → ChunkRead) (offset len : Nat) (buf : Bytes) : Int × Reading :=
  fioReader conf.geom.chunksize e mem shfsReadChunkNosched offset len buf

/-- `shfs_fio_cache_read`, with its `shfs_cache_read`. It allocates nothing. -/
def shfsFioCacheRead (conf : VolConf) (e : Hentry) (shfsCacheRead : Nat → Nat → ChunkRead)
    (offset len : Nat) (buf : Bytes) : Int × Reading :=
  fioReader conf.geom.chunksize e true shfsCacheRead offset len buf

/-- `shfs_fio_cache_read_nosched`, with its `shfs_cache_read_nosched`. -/
def shfsFioCacheReadNosched (conf : VolConf) (e : Hentry) (shfsCacheReadNosched : Nat → Nat → ChunkRead)
    (offset len : Nat) (buf : Bytes) : Int × Reading :=
  fioReader conf.geom.chunksize e true shfsCacheReadNosched offset len buf

/-! ## The loop -/

theorem wrap64_succ (c j : Nat) : wrap64 (wrap64 (c + 1) + j) = wrap64 (c + (j + 1)) := by
  rw [wrap64_add, Nat.add_assoc, Nat.add_comm 1 j]

section Loop

variable {cs : Nat} {read : Nat → Nat → ChunkRead} {fuel i chkOff bytOff bufOff left : Nat} {r : Reading}

/-- A turn whose read succeeds copies the rest of the chunk, or the rest of the range. -/
theorem fioLoop_step {chk : Bytes} (hleft : left ≠ 0) (hread : read i chkOff = .ok chk)
    (hb : bytOff ≤ cs) (hcs : cs < u64Size) :
    fioLoop cs read (fuel + 1) i chkOff bytOff bufOff left r =
      fioLoop cs read fuel (i + 1) (wrap64 (chkOff + 1)) 0 (bufOff + min (cs - bytOff) left)
        (left - min (cs - bytOff) left) (r.copy chk ⟨chkOff, bytOff, bufOff, min (cs - bytOff) left⟩) := by
  rw [fioLoop, if_neg hleft, hread, wrap64_gap hb hcs]

/-- A copy is made from the chunk with the number `j` of the range, of some of its bytes that lie in the
range. This chunk and those in front of it have been read. -/
theorem fioLoop_copies (hb : bytOff < cs) (hcs : cs < u64Size) (hchk : chkOff < u64Size) :
    ∀ k ∈ (fioLoop cs read fuel i chkOff bytOff bufOff left r).2.copies,
      k ∈ r.copies ∨ ∃ j, k.chunk = wrap64 (chkOff + j) ∧ j * cs < bytOff + left ∧
        ∀ j' ≤ j, ∃ i' chk, read i' (wrap64 (chkOff + j')) = .ok chk := by
  induction fuel generalizing i chkOff bytOff bufOff left r with
  | zero => exact fun k hk => .inl hk
  | succ fuel ih =>
      intro k hk
      by_cases hleft : left = 0
      · rw [fioLoop, if_pos hleft] at hk
        exact .inl hk
      · cases hread : read i chkOff with
        | error e =>
            rw [fioLoop, if_neg hleft, hread] at hk
            exact .inl hk
        | ok chk =>
            rw [fioLoop_step hleft hread hb.le hcs] at hk
            have hfirst : ∃ i' chk, read i' (wrap64 (chkOff + 0)) = .ok chk :=
              ⟨i, chk, by rw [Nat.add_zero, wrap64_of_lt hchk, hread]⟩
            obtain hold | ⟨j, hj, hlt, hreads⟩ := ih (by omega) (wrap64_lt _) k hk
            · obtain hold | rfl := List.mem_append.1 hold |>.imp_right List.mem_singleton.1
              · exact .inl hold
              · refine .inr ⟨0, (wrap64_of_lt hchk).symm, by omega, fun j' hj' => ?_⟩
                rw [Nat.le_zero.1 hj']
                exact hfirst
            · refine .inr ⟨j + 1, by rw [hj, wrap64_succ], ?_, fun j' hj' => ?_⟩
              · rw [Nat.succ_mul]
                omega
              · cases j' with
                | zero => exact hfirst
                | succ j' =>
                    rw [← wrap64_succ]
                    exact hreads j' (Nat.le_of_succ_le_succ hj')

theorem fioLoop_keeps (hb : bytOff < cs) (hcs : cs < u64Size) {k : ChunkCopy} (hk : k ∈ r.copies) :
    k ∈ (fioLoop cs read fuel i chkOff bytOff bufOff left r).2.copies := by
  induction fuel generalizing i chkOff bytOff bufOff left r with
  | zero => exact hk
  | succ fuel ih =>
      by_cases hleft : left = 0
      · rw [fioLoop, if_pos hleft]
        exact hk
      · cases hread : read i chkOff with
        | error e =>
            rw [fioLoop, if_neg hleft, hread]
            exact hk
        | ok chk =>
            rw [fioLoop_step hleft hread hb.le hcs]
            exact ih (by omega) (List.mem_append_left _ hk)

/-- While the reads succeed, every chunk that holds a byte of the range is copied from. -/
theorem fioLoop_covers (hok : ∀ i c, ∃ chk, read i c = .ok chk) (hb : bytOff < cs) (hcs : cs < u64Size)
    (hchk : chkOff < u64Size) (hfuel : left ≤ fuel) {j : Nat} (hleft : 0 < left)
    (hj : j * cs < bytOff + left) :
    ∃ k ∈ (fioLoop cs read fuel i chkOff bytOff bufOff left r).2.copies,
      k.chunk = wrap64 (chkOff + j) ∧ 0 < k.len := by
  induction fuel generalizing i chkOff bytOff bufOff left r j with
  | zero => omega
  | succ fuel ih =>
      obtain ⟨chk, hread⟩ := hok i chkOff
      rw [fioLoop_step (by omega) hread hb.le hcs]
      cases j with
      | zero =>
          refine ⟨_, fioLoop_keeps (by omega) hcs (List.mem_append_right _ List.mem_cons_self), ?_, ?_⟩
          · exact (wrap64_of_lt hchk).symm
          · show 0 < min (cs - bytOff) left
            omega
      | succ j =>
          rw [Nat.succ_mul] at hj
          have hrest : j * cs < 0 + (left - min (cs - bytOff) left) := by omega
          obtain ⟨k, hk, hchunk, hpos⟩ := ih (by omega) (wrap64_lt _) (by omega) (by omega) hrest
          exact ⟨k, hk, by rw [hchunk, wrap64_succ], hpos⟩

/-- When the loop is through, the range is in the buffer, and nothing else of the buffer has changed.
`vol` is what the chunks hold. -/
theorem fioLoop_buf {vol : Nat → Nat → UInt8}
    (hread : ∀ j chk, j * cs < bytOff + left → read (i + j) (wrap64 (chkOff + j)) = .ok chk →
      ∀ k < cs, chk k = vol (wrap64 (chkOff + j)) k)
    (hb : bytOff < cs) (hcs : cs < u64Size) (hchk : chkOff < u64Size) (hfuel : left ≤ fuel)
    (hret : (fioLoop cs read fuel i chkOff bytOff bufOff left r).1 = 0) :
    (∀ k < left, (fioLoop cs read fuel i chkOff bytOff bufOff left r).2.buf (bufOff + k) =
        vol (wrap64 (chkOff + (bytOff + k) / cs)) ((bytOff + k) % cs)) ∧
      ∀ k, k < bufOff ∨ bufOff + left ≤ k →
        (fioLoop cs read fuel i chkOff bytOff bufOff left r).2.buf k = r.buf k := by
  induction fuel generalizing i chkOff bytOff bufOff left r with
  | zero => exact ⟨fun k hk => by omega, fun _ _ => rfl⟩
  | succ fuel ih =>
      by_cases hleft : left = 0
      · rw [fioLoop, if_pos hleft]
        exact ⟨fun k hk => by omega, fun _ _ => rfl⟩
      · cases hchunk : read i chkOff with
        | error e =>
            rw [fioLoop, if_neg hleft, hchunk] at hret
            exact absurd hret (by have := e.2; simp only; omega)
        | ok chk =>
            rw [fioLoop_step hleft hchunk hb.le hcs] at hret ⊢
            have hfirst : ∀ k < cs, chk k = vol chkOff k := by
              have h0 := hread 0 chk (by omega)
              rw [Nat.add_zero, Nat.add_zero, wrap64_of_lt hchk] at h0
              exact h0 hchunk
            have hrest := ih (by
              intro j chk' hj
              rw [wrap64_succ, Nat.add_assoc i, Nat.add_comm 1 j]
              exact hread (j + 1) chk' (by rw [Nat.succ_mul]; omega)) (by omega) (wrap64_lt _) (by omega) hret
            obtain ⟨hin, hout⟩ := hrest
            constructor
            · intro k hk
              by_cases hnow : k < min (cs - bytOff) left
              · rw [hout _ (.inl (by omega))]
                have hblit := @Bytes.blit_inside r.buf (Bytes.window chk bytOff) bufOff
                  (min (cs - bytOff) left) k hnow
                have hlt : bytOff + k < cs := by omega
                rw [Nat.div_eq_of_lt hlt, Nat.mod_eq_of_lt hlt, Nat.add_zero, wrap64_of_lt hchk,
                  ← hfirst _ hlt]
                exact hblit
              · -- the byte lies in a later chunk, so this turn copies to the end of its own
                have hk' := hin (k - min (cs - bytOff) left) (by omega)
                have hpos : bytOff + k = cs + (k - min (cs - bytOff) left) := by omega
                have hbuf : bufOff + min (cs - bytOff) left + (k - min (cs - bytOff) left) =
                    bufOff + k := by omega
                rw [hbuf, Nat.zero_add, wrap64_succ] at hk'
                rw [hk', hpos, Nat.add_div_left _ (by omega), Nat.add_mod_left]
            · intro k hk
              rw [hout k (by omega)]
              exact Bytes.blit_outside (by simp only; omega)

/-- However the loop ends, a byte of the buffer is what it was, or the byte of the range that belongs there. -/
theorem fioLoop_either {vol : Nat → Nat → UInt8}
    (hread : ∀ j chk, read (i + j) (wrap64 (chkOff + j)) = .ok chk →
      ∀ k < cs, chk k = vol (wrap64 (chkOff + j)) k)
    (hb : bytOff < cs) (hcs : cs < u64Size) (hchk : chkOff < u64Size) (k : Nat) :
    (fioLoop cs read fuel i chkOff bytOff bufOff left r).2.buf k = r.buf k ∨
      ∃ d < left, k = bufOff + d ∧ (fioLoop cs read fuel i chkOff bytOff bufOff left r).2.buf k =
        vol (wrap64 (chkOff + (bytOff + d) / cs)) ((bytOff + d) % cs) := by
  induction fuel generalizing i chkOff bytOff bufOff left r with
  | zero => exact Or.inl rfl
  | succ fuel ih =>
      by_cases hleft : left = 0
      · rw [fioLoop, if_pos hleft]
        exact Or.inl rfl
      cases hchunk : read i chkOff with
      | error e =>
          rw [fioLoop, if_neg hleft, hchunk]
          exact Or.inl rfl
      | ok chk =>
          rw [fioLoop_step hleft hchunk hb.le hcs]
          have hfirst : ∀ b < cs, chk b = vol chkOff b := by
            have h0 := hread 0 chk
            rw [Nat.add_zero, Nat.add_zero, wrap64_of_lt hchk] at h0
            exact h0 hchunk
          have hrest : ∀ j chk, read (i + 1 + j) (wrap64 (wrap64 (chkOff + 1) + j)) = .ok chk →
              ∀ b < cs, chk b = vol (wrap64 (wrap64 (chkOff + 1) + j)) b := fun j chk' hj => by
            rw [wrap64_succ] at hj ⊢
            rw [Nat.add_assoc, Nat.add_comm 1 j] at hj
            exact hread (j + 1) chk' hj
          have hrec := @ih (i + 1) (wrap64 (chkOff + 1)) 0 (bufOff + min (cs - bytOff) left)
            (left - min (cs - bytOff) left) (r.copy chk ⟨chkOff, bytOff, bufOff, min (cs - bytOff) left⟩)
            hrest (by omega) (wrap64_lt _)
          rcases hrec with hold | ⟨d, hd, rfl, hnew⟩
          · rw [hold]
            by_cases hin : bufOff ≤ k ∧ k < bufOff + min (cs - bytOff) left
            · -- this turn has copied it
              obtain ⟨d, rfl⟩ := Nat.exists_eq_add_of_le hin.1
              have hlt : bytOff + d < cs := by omega
              refine Or.inr ⟨d, by omega, rfl, ?_⟩
              rw [Nat.div_eq_of_lt hlt, Nat.mod_eq_of_lt hlt, Nat.add_zero, wrap64_of_lt hchk, ← hfirst _ hlt]
              have hd : d < min (cs - bytOff) left := by omega
              exact Bytes.blit_inside hd
            · exact Or.inl (Bytes.blit_outside (by simp only; omega))
          · have hpos : bytOff + (min (cs - bytOff) left + d) = cs + d := by omega
            refine Or.inr ⟨min (cs - bytOff) left + d, by omega, Nat.add_assoc _ _ _, ?_⟩
            rw [hnew, Nat.zero_add, wrap64_succ, hpos, Nat.add_div_left _ (by omega), Nat.add_mod_left]

/-- A read that fails leaves the buffer as it was from the byte on that it was to deliver first. -/
theorem fioLoop_stale {e : ErrRet} {j d : Nat} (hfail : read (i + j) (wrap64 (chkOff + j)) = .error e)
    (hj : j * cs < bytOff + left) (hd : j * cs ≤ bytOff + d) (hb : bytOff < cs) (hcs : cs < u64Size)
    (hchk : chkOff < u64Size) :
    (fioLoop cs read fuel i chkOff bytOff bufOff left r).2.buf (bufOff + d) = r.buf (bufOff + d) := by
  induction fuel generalizing i chkOff bytOff bufOff left r j d with
  | zero => rfl
  | succ fuel ih =>
      by_cases hleft : left = 0
      · rw [fioLoop, if_pos hleft]
      cases hchunk : read i chkOff with
      | error e => rw [fioLoop, if_neg hleft, hchunk]
      | ok chk =>
          cases j with
          | zero =>
              rw [Nat.add_zero, Nat.add_zero, wrap64_of_lt hchk, hchunk] at hfail
              cases hfail
          | succ j =>
              rw [Nat.succ_mul] at hj hd
              rw [fioLoop_step hleft hchunk hb.le hcs]
              have hn : min (cs - bytOff) left = cs - bytOff := by omega
              have hbuf : bufOff + d = bufOff + (cs - bytOff) + (d - (cs - bytOff)) := by omega
              have hrest := @ih (i + 1) (wrap64 (chkOff + 1)) 0 (bufOff + (cs - bytOff)) (left - (cs - bytOff))
                (r.copy chk ⟨chkOff, bytOff, bufOff, cs - bytOff⟩) j (d - (cs - bytOff))
                (by rw [wrap64_succ, Nat.add_assoc, Nat.add_comm 1 j]; exact hfail)
                (by omega) (by omega) (by omega) (wrap64_lt _)
              rw [hn, hbuf, hrest]
              exact Bytes.blit_outside (Or.inr (Nat.le_add_right _ _))

/-- Only the reads from the first turn on matter. -/
theorem fioLoop_congr {read' : Nat → Nat → ChunkRead} (h : ∀ j ≥ i, ∀ c, read j c = read' j c) :
    fioLoop cs read fuel i chkOff bytOff bufOff left r =
      fioLoop cs read' fuel i chkOff bytOff bufOff left r := by
  induction fuel generalizing i chkOff bytOff bufOff left r with
  | zero => rfl
  | succ fuel ih =>
      rw [fioLoop, fioLoop, h i (le_refl i)]
      split
      · rfl
      · split
        · rfl
        · exact ih fun j hj => h j (by omega)

/-- While the reads succeed the loop returns 0. -/
theorem fioLoop_ret (hok : ∀ j, j * cs < bytOff + left → ∃ chk, read (i + j) (wrap64 (chkOff + j)) = .ok chk)
    (hb : bytOff < cs) (hcs : cs < u64Size) (hchk : chkOff < u64Size) :
    (fioLoop cs read fuel i chkOff bytOff bufOff left r).1 = 0 := by
  induction fuel generalizing i chkOff bytOff bufOff left r with
  | zero => rfl
  | succ fuel ih =>
      by_cases hleft : left = 0
      · rw [fioLoop, if_pos hleft]
      · obtain ⟨chk, hread⟩ := hok 0 (by omega)
        rw [Nat.add_zero, Nat.add_zero, wrap64_of_lt hchk] at hread
        rw [fioLoop_step hleft hread hb.le hcs]
        apply ih _ (by omega) (wrap64_lt _)
        intro j hj
        rw [wrap64_succ, Nat.add_assoc i, Nat.add_comm 1 j]
        exact hok (j + 1) (by rw [Nat.succ_mul]; omega)

end Loop

/-! ## Bounds -/

/-- The chunk `c` lies in the container of the entry. -/
def InContainer (cs : Nat) (e : Hentry) (c : Nat) : Prop :=
  e.chunk ≤ c ∧ c < e.chunk + (e.offset + e.len + cs - 1) / cs

/-- A reader asked for `len` bytes from `offset` on refuses a range that the file does not have, and
copies from chunks of the container only. -/
def Bounded (cs : Nat) (e : Hentry) (offset len : Nat) (reader : Bytes → Int × Reading) : Prop :=
  ∀ buf, (¬ offset + len ≤ e.len → (reader buf).1 = ErrRet.einval) ∧
    ∀ k ∈ (reader buf).2.copies, 0 < k.len → InContainer cs e k.chunk

/-- The outcomes of cached reads on a mounted volume: chunk 0 and chunks behind the volume are
refused. -/
structure CacheReads (volsize : Nat) where
  read : Nat → Nat → ChunkRead
  refused : ∀ i c, c = 0 ∨ volsize < c → read i c = .error ErrRet.einval

/-- The number of the volume chunk, counted from the first chunk of the container, that holds the byte
`foff` of the file. -/
def chunkIndex (cs : Nat) (e : Hentry) (foff : Nat) : Nat := wrap64 (e.offset + foff) / cs

theorem shfsVolchkFoff_eq (cs : Nat) (e : Hentry) (foff : Nat) :
    shfsVolchkFoff cs e foff = wrap64 (chunkIndex cs e foff + e.chunk) := rfl

/-- The sum of offset and length wraps, while the offset lies in the file. -/
def RangeWraps (e : Hentry) (offset len : Nat) : Prop := offset ≤ e.len ∧ u64Size ≤ offset + len

theorem Hentry.chunk_lt (e : Hentry) : e.chunk < u64Size := Bytes.le_lt e 64 8

theorem Hentry.len_lt (e : Hentry) : e.len < u64Size := Bytes.le_lt e 80 8

section Bounds

variable {cs volsize offset len : Nat} {e : Hentry} {buf : Bytes} {mem : Bool}
  {read : Nat → Nat → ChunkRead}

/-- The check of the range refuses what the file does not have, unless the range wraps. -/
theorem fioReader_refuses (hlink : e.isLink = false) (hin : ¬ offset + len ≤ e.len)
    (hwrap : ¬ RangeWraps e offset len) :
    fioReader cs e mem read offset len buf = ((ErrRet.einval : Int), ⟨buf, []⟩) := by
  unfold fioReader
  rw [hlink, if_neg (by decide), if_pos]
  by_cases hle : e.len < offset
  · exact .inl hle
  · right
    have hsum : offset + len < u64Size := by
      by_contra hge
      exact hwrap ⟨by omega, by omega⟩
    rw [wrap64_of_lt hsum]
    omega

/-- Otherwise it lets the range pass. -/
theorem fioReader_passes (hlink : e.isLink = false) (hlen : len < u64Size) (hlt : e.len < u64Size)
    (h : offset + len ≤ e.len ∨ RangeWraps e offset len) :
    fioReader cs e mem read offset len buf =
      if mem then fioLoop cs read len 0 (shfsVolchkFoff cs e offset) (shfsVolchkoffFoff cs e offset) 0
        len ⟨buf, []⟩
      else ((ErrRet.enomem : Int), ⟨buf, []⟩) := by
  have hok : ¬ (e.len < offset ∨ e.len < wrap64 (offset + len)) := by
    obtain hin | ⟨hle, hge⟩ := h
    · rw [wrap64_of_lt (by omega)]
      omega
    · have hsum : wrap64 (offset + len) = offset + len - u64Size := by
        unfold wrap64
        rw [Nat.mod_eq_sub_mod hge]
        exact Nat.mod_eq_of_lt (by omega)
      omega
  unfold fioReader
  rw [hlink, if_neg (by decide), if_neg hok]
  cases mem <;> rfl

/-- The chunk with the number `j` of a range that the file has lies in the container, if its address
does not wrap. -/
theorem inContainer_of_range (hcs : 0 < cs) (hin : offset + len ≤ e.len) {j : Nat}
    (hj : j * cs < shfsVolchkoffFoff cs e offset + len) :
    InContainer cs e (e.chunk + (chunkIndex cs e offset + j)) := by
  have hw : wrap64 (e.offset + offset) ≤ e.offset + offset := Nat.mod_le _ _
  have hdiv := Nat.div_add_mod' (wrap64 (e.offset + offset)) cs
  have hmul : (chunkIndex cs e offset + j + 1) * cs ≤ e.offset + e.len + cs - 1 := by
    unfold chunkIndex
    unfold shfsVolchkoffFoff at hj
    rw [Nat.succ_mul, Nat.add_mul]
    omega
  have hlt := (Nat.le_div_iff_mul_le hcs).2 hmul
  exact ⟨Nat.le_add_right _ _, Nat.add_lt_add_left hlt _⟩

/-- An address that wraps is not in the container. -/
theorem not_inContainer_of_wrap {i : Nat} (hi : i < u64Size) (hge : u64Size ≤ e.chunk + i) :
    ¬ InContainer cs e (wrap64 (i + e.chunk)) := by
  rintro ⟨hle, -⟩
  have hchunk := e.chunk_lt
  unfold wrap64 at hle
  rw [Nat.mod_eq_sub_mod (by omega), Nat.mod_eq_of_lt (by omega)] at hle
  omega

/-- The chunks that a cached reader has read in a row: no address wraps on the way, since chunk 0 is refused. -/
theorem CacheReads.in_row (reads : CacheReads volsize) (hvol : volsize < u64Size) {chkOff j : Nat}
    (hchk : chkOff < u64Size) (hreads : ∀ j' ≤ j, ∃ i chk, reads.read i (wrap64 (chkOff + j')) = .ok chk) :
    1 ≤ chkOff + j ∧ chkOff + j ≤ volsize := by
  have hin : ∀ c i chk, reads.read i c = .ok chk → 1 ≤ c ∧ c ≤ volsize := by
    intro c i chk hread
    by_contra hout
    rw [reads.refused i c (by omega)] at hread
    cases hread
  induction j with
  | zero =>
      rcases hreads 0 (Nat.le_refl 0) with ⟨i, chk, hread⟩
      rw [Nat.add_zero, wrap64_of_lt hchk] at hread
      exact hin _ _ _ hread
  | succ j ih =>
      have hprev := ih fun j' hj' => hreads j' (Nat.le_succ_of_le hj')
      rcases hreads (j + 1) (Nat.le_refl _) with ⟨i, chk, hread⟩
      have hread' := hin _ _ _ hread
      by_cases hlast : chkOff + (j + 1) = u64Size
      · rw [hlast] at hread'
        exact absurd hread'.1 (by decide)
      · rw [wrap64_of_lt (by omega)] at hread'
        exact hread'

end Bounds

/-- What a direct reader needs to keep within bounds: the range does not wrap, and no address of a chunk
that it reads does. -/
def DirectFits (cs : Nat) (e : Hentry) (offset len : Nat) : Prop :=
  ¬ RangeWraps e offset len ∧ (0 < len → offset + len ≤ e.len →
    e.chunk + (wrap64 (e.offset + offset) + len - 1) / cs < u64Size)

/-- What a cached reader needs, which reads nothing outside chunks 1 to `volsize`: where its first chunk is
one of these, neither the range nor the address of this chunk wraps. -/
def CachedFits (cs volsize : Nat) (e : Hentry) (offset len : Nat) : Prop :=
  1 ≤ shfsVolchkFoff cs e offset → shfsVolchkFoff cs e offset ≤ volsize →
    ¬ RangeWraps e offset len ∧
      (0 < len → offset + len ≤ e.len → e.chunk + chunkIndex cs e offset < u64Size)

section Bounded

variable {cs volsize offset len : Nat} {e : Hentry}

theorem chunkIndex_lt (e : Hentry) (cs offset : Nat) : chunkIndex cs e offset < u64Size :=
  lt_of_le_of_lt (Nat.div_le_self _ _) (wrap64_lt _)

/-- The last chunk of a range, counted from the first one. -/
theorem lastIndex (hcs : 0 < cs) (hlen : 0 < len) :
    chunkIndex cs e offset + (shfsVolchkoffFoff cs e offset + len - 1) / cs =
      (wrap64 (e.offset + offset) + len - 1) / cs := by
  have hdiv := Nat.div_add_mod (wrap64 (e.offset + offset)) cs
  have hsum : wrap64 (e.offset + offset) + len - 1 =
      cs * chunkIndex cs e offset + (shfsVolchkoffFoff cs e offset + len - 1) := by
    unfold chunkIndex shfsVolchkoffFoff
    omega
  rw [hsum, Nat.mul_add_div hcs]

/-- When a direct reader keeps within bounds whatever it meets. -/
theorem direct_bounded_iff (hlink : e.isLink = false) (hcs : 1 < cs) (hcs' : cs < u64Size)
    (hlen : len < u64Size) :
    (∀ mem read, Bounded cs e offset len (fioReader cs e mem read offset len)) ↔
      DirectFits cs e offset len := by
  have hpos : 0 < cs := by omega
  have hb : shfsVolchkoffFoff cs e offset < cs := Nat.mod_lt _ hpos
  constructor
  · intro h
    refine ⟨fun hwrap => ?_, fun hlen0 hin => ?_⟩
    · -- the range is let pass, so a failing allocation is noticed
      have hret := (h false (fun _ _ => .error .eio) Bytes.zeros).1 (by have := e.len_lt; have := hwrap.2; omega)
      rw [fioReader_passes hlink hlen e.len_lt (.inr hwrap)] at hret
      cases hret
    · by_contra hge
      have hcopies := (h true (fun _ _ => .ok Bytes.zeros) Bytes.zeros).2
      rw [fioReader_passes hlink hlen e.len_lt (.inl hin), if_pos rfl] at hcopies
      have hj : (shfsVolchkoffFoff cs e offset + len - 1) / cs * cs <
          shfsVolchkoffFoff cs e offset + len := by
        have := Nat.div_mul_le_self (shfsVolchkoffFoff cs e offset + len - 1) cs
        omega
      obtain ⟨k, hk, hchunk, hk0⟩ := @fioLoop_covers cs (fun _ _ => .ok Bytes.zeros) len 0
        (shfsVolchkFoff cs e offset) _ 0 len ⟨Bytes.zeros, []⟩ (fun _ _ => ⟨_, rfl⟩) hb hcs' (wrap64_lt _)
        (Nat.le_refl _) _ hlen0 hj
      have hin' := hcopies k hk hk0
      have haddr : wrap64 (shfsVolchkFoff cs e offset +
          (shfsVolchkoffFoff cs e offset + len - 1) / cs) =
          wrap64 ((wrap64 (e.offset + offset) + len - 1) / cs + e.chunk) := by
        have hsum : wrap64 (e.offset + offset) / cs + e.chunk +
            (shfsVolchkoffFoff cs e offset + len - 1) / cs =
            chunkIndex cs e offset + (shfsVolchkoffFoff cs e offset + len - 1) / cs + e.chunk :=
          Nat.add_right_comm _ _ _
        rw [← lastIndex hpos hlen0, shfsVolchkFoff, wrap64_add, hsum]
      rw [hchunk, haddr] at hin'
      have hlast : (wrap64 (e.offset + offset) + len - 1) / cs < u64Size := by
        have hw := wrap64_lt (e.offset + offset)
        have h2 : u64Size * 2 ≤ u64Size * cs := Nat.mul_le_mul_left _ hcs
        rw [Nat.div_lt_iff_lt_mul hpos]
        omega
      have hout := @not_inContainer_of_wrap cs e _ hlast (Nat.not_lt.1 hge)
      exact hout hin'
  · rintro ⟨hwrap, hchunk⟩ mem read buf
    by_cases hin : offset + len ≤ e.len
    · refine ⟨fun h => absurd hin h, fun k hk hk0 => ?_⟩
      rw [fioReader_passes hlink hlen e.len_lt (.inl hin)] at hk
      cases mem with
      | false => cases hk
      | true =>
          rw [if_pos rfl] at hk
          obtain hlen0 | hlen0 := Nat.eq_zero_or_pos len
          · rw [hlen0] at hk
            cases hk
          obtain hk | ⟨j, hj, hlt, -⟩ := fioLoop_copies hb hcs' (wrap64_lt _) k hk
          · cases hk
          · have hle : chunkIndex cs e offset + j ≤ (wrap64 (e.offset + offset) + len - 1) / cs := by
              rw [← lastIndex hpos hlen0]
              exact Nat.add_le_add_left ((Nat.le_div_iff_mul_le hpos).2 (by omega)) _
            have haddr : k.chunk = e.chunk + (chunkIndex cs e offset + j) := by
              have hmax := hchunk hlen0 hin
              rw [hj, wrap64_add]
              have heq : wrap64 (e.offset + offset) / cs + e.chunk + j =
                  e.chunk + (chunkIndex cs e offset + j) := by
                unfold chunkIndex
                omega
              rw [heq, wrap64_of_lt (by omega)]
            rw [haddr]
            exact inContainer_of_range hpos hin hlt
    · rw [fioReader_refuses hlink hin hwrap]
      exact ⟨fun _ => rfl, fun k hk => by cases hk⟩

/-- When a cached reader does. -/
theorem cached_bounded_iff (hlink : e.isLink = false) (hcs : 1 < cs) (hcs' : cs < u64Size)
    (hvol : volsize < u64Size) (hlen : len < u64Size) :
    (∀ reads : CacheReads volsize, Bounded cs e offset len (fioReader cs e true reads.read offset len)) ↔
      CachedFits cs volsize e offset len := by
  have hpos : 0 < cs := by omega
  have hb : shfsVolchkoffFoff cs e offset < cs := Nat.mod_lt _ hpos
  -- a device that gives the same answer for every chunk of the volume
  have hdevice : ∀ answer : ChunkRead, ∃ reads : CacheReads volsize,
      ∀ i c, 1 ≤ c → c ≤ volsize → reads.read i c = answer := fun answer =>
    ⟨⟨fun _ c => if c = 0 ∨ volsize < c then .error .einval else answer, fun _ _ h => if_pos h⟩,
      fun _ _ h1 h2 => if_neg (by omega)⟩
  constructor
  · intro h h1 h2
    refine ⟨fun hwrap => ?_, fun hlen0 hin => ?_⟩
    · obtain ⟨reads, hreads⟩ := hdevice (.error .eio)
      have hlen1 : len = len - 1 + 1 := by
        have := e.len_lt
        have := hwrap.1
        have := hwrap.2
        omega
      have hret := (h reads Bytes.zeros).1 (by have := e.len_lt; have := hwrap.2; omega)
      rw [fioReader_passes hlink hlen e.len_lt (.inr hwrap), if_pos rfl, hlen1, fioLoop,
        if_neg (by omega), hreads 0 _ h1 h2] at hret
      cases hret
    · by_contra hge
      obtain ⟨reads, hreads⟩ := hdevice (.ok Bytes.zeros)
      have hlen1 : len = len - 1 + 1 := by omega
      have hcopies := (h reads Bytes.zeros).2
      rw [fioReader_passes hlink hlen e.len_lt (.inl hin), if_pos rfl] at hcopies
      have hfirst : ⟨shfsVolchkFoff cs e offset, shfsVolchkoffFoff cs e offset, 0,
          min (cs - shfsVolchkoffFoff cs e offset) len⟩ ∈ (fioLoop cs reads.read len 0
            (shfsVolchkFoff cs e offset) (shfsVolchkoffFoff cs e offset) 0 len
            ⟨Bytes.zeros, []⟩).2.copies := by
        rw [hlen1, fioLoop_step (by omega) (hreads 0 _ h1 h2) hb.le hcs']
        exact fioLoop_keeps hpos hcs' (List.mem_append_right _ List.mem_cons_self)
      have hpos' : 0 < min (cs - shfsVolchkoffFoff cs e offset) len := by omega
      have hin' := hcopies _ hfirst hpos'
      simp only [shfsVolchkFoff_eq] at hin'
      have hout := @not_inContainer_of_wrap cs e _ (chunkIndex_lt e cs offset) (Nat.not_lt.1 hge)
      exact hout hin'
  · intro hfits reads buf
    by_cases hin : offset + len ≤ e.len
    · refine ⟨fun h => absurd hin h, fun k hk hk0 => ?_⟩
      rw [fioReader_passes hlink hlen e.len_lt (.inl hin), if_pos rfl] at hk
      obtain hlen0 | hlen0 := Nat.eq_zero_or_pos len
      · rw [hlen0] at hk
        cases hk
      have hstart : shfsVolchkFoff cs e offset < u64Size := wrap64_lt _
      obtain hk | ⟨j, hj, hlt, hreads⟩ := fioLoop_copies hb hcs' hstart k hk
      · cases hk
      · have hrow : ∀ j' ≤ j, 1 ≤ shfsVolchkFoff cs e offset + j' ∧
            shfsVolchkFoff cs e offset + j' ≤ volsize := fun j' hj' =>
          reads.in_row hvol hstart fun j'' hj'' => hreads j'' (Nat.le_trans hj'' hj')
        have haddr : k.chunk = e.chunk + (chunkIndex cs e offset + j) := by
          have hfirst := hrow 0 (Nat.zero_le j)
          rw [Nat.add_zero] at hfirst
          have hlast := hrow j (Nat.le_refl j)
          have hmax := (hfits hfirst.1 hfirst.2).2 hlen0 hin
          rw [hj, wrap64_of_lt (by omega), shfsVolchkFoff, wrap64_of_lt (by unfold chunkIndex at hmax; omega)]
          unfold chunkIndex
          omega
        rw [haddr]
        exact inContainer_of_range hpos hin hlt
    · by_cases hwrap : RangeWraps e offset len
      · -- the first chunk is outside the volume and refused
        have hout : shfsVolchkFoff cs e offset = 0 ∨ volsize < shfsVolchkFoff cs e offset := by
          by_contra hnot
          exact (hfits (by omega) (by omega)).1 hwrap
        have hlen1 : len = len - 1 + 1 := by
          have := e.len_lt
          have := hwrap.1
          have := hwrap.2
          omega
        rw [fioReader_passes hlink hlen e.len_lt (.inr hwrap), if_pos rfl, hlen1, fioLoop,
          if_neg (by omega), reads.refused 0 _ hout]
        exact ⟨fun _ => rfl, fun k hk => by cases hk⟩
      · rw [fioReader_refuses hlink hin hwrap]
        exact ⟨fun _ => rfl, fun k hk => by cases hk⟩

end Bounded

/-- When each of the four readers keeps within bounds, for a file and a range of 64-bit values: the direct
ones and the cached ones. Keeping within bounds is asked for whatever the chunk reads answer; a cached read
of chunk 0 or of one behind the volume is refused. The two conditions are about the 64-bit sums of a range
and of an address. -/
theorem fio_bounds_iff (conf : VolConf) (e : Hentry) (offset len volsize : Nat)
    (hlink : e.isLink = false) (hlen : len < u64Size)
    (hvol : volsize < u64Size) :
    ((∀ mem read, Bounded conf.geom.chunksize e offset len (shfsFioRead conf e mem read offset len)) ↔
        DirectFits conf.geom.chunksize e offset len) ∧
    ((∀ mem read,
        Bounded conf.geom.chunksize e offset len (shfsFioReadNosched conf e mem read offset len)) ↔
        DirectFits conf.geom.chunksize e offset len) ∧
    ((∀ reads : CacheReads volsize,
        Bounded conf.geom.chunksize e offset len (shfsFioCacheRead conf e reads.read offset len)) ↔
        CachedFits conf.geom.chunksize volsize e offset len) ∧
    ((∀ reads : CacheReads volsize,
        Bounded conf.geom.chunksize e offset len (shfsFioCacheReadNosched conf e reads.read offset len)) ↔
        CachedFits conf.geom.chunksize volsize e offset len) := by
  obtain ⟨hcs, hcs'⟩ := conf.geom.chunksize_bounds
  have hlt : conf.geom.chunksize < u64Size := lt_of_le_of_lt hcs' (by decide)
  have hdirect := @direct_bounded_iff _ offset len e hlink (by omega) hlt hlen
  have hcached := @cached_bounded_iff _ volsize offset len e hlink (by omega) hlt hvol hlen
  exact ⟨hdirect, hdirect, hcached, hcached⟩

/-- One bucket with one entry on one member with 4096-byte chunks. -/
def tinyConf : VolConf := ⟨.single, ⟨2, 0, 1, 32, 1, 1, 0⟩, by decide⟩

/-- A file of one byte in chunk 2. -/
def oneByte : Hentry := Bytes.putLe (Bytes.putLe Bytes.zeros 64 8 2) 80 8 1

/-- A file of 12 bytes, the last 6 of chunk 2 and the first 6 of chunk 3. -/
def twoChunkFile : Hentry := Bytes.putLe (Bytes.putLe (Bytes.putLe Bytes.zeros 64 8 2) 72 8 4090) 80 8 12

/-- Ten bytes of it, over both chunks, are read within bounds. -/
theorem fio_bounds_iff_two :
    ((∀ mem read,
        Bounded tinyConf.geom.chunksize twoChunkFile 1 10 (shfsFioRead tinyConf twoChunkFile mem read 1 10)) ↔
        DirectFits tinyConf.geom.chunksize twoChunkFile 1 10) ∧
    ((∀ mem read,
        Bounded tinyConf.geom.chunksize twoChunkFile 1 10 (shfsFioReadNosched tinyConf twoChunkFile mem read 1 10)) ↔
        DirectFits tinyConf.geom.chunksize twoChunkFile 1 10) ∧
    ((∀ reads : CacheReads 8,
        Bounded tinyConf.geom.chunksize twoChunkFile 1 10 (shfsFioCacheRead tinyConf twoChunkFile reads.read 1 10)) ↔
        CachedFits tinyConf.geom.chunksize 8 twoChunkFile 1 10) ∧
    ((∀ reads : CacheReads 8, Bounded tinyConf.geom.chunksize twoChunkFile 1 10
          (shfsFioCacheReadNosched tinyConf twoChunkFile reads.read 1 10)) ↔
        CachedFits tinyConf.geom.chunksize 8 twoChunkFile 1 10) :=
  fio_bounds_iff tinyConf twoChunkFile 1 10 8 (by decide) (by decide) (by decide)

/-- Reading `2 ^ 64 - 1` bytes from its end on: the sum wraps to 0, the range is let pass, and the whole
next chunk is copied before a read fails. -/
theorem fio_bounds_wrapped :
    oneByte.isLink = false ∧ ¬ 1 + (2 ^ 64 - 1) ≤ oneByte.len ∧
      ¬ InContainer tinyConf.geom.chunksize oneByte 3 ∧
      (shfsFioRead tinyConf oneByte true
        (fun _ c => if c ≤ 3 then .ok Bytes.zeros else .error .eio) 1 (2 ^ 64 - 1) Bytes.zeros).1 = -5 ∧
      (shfsFioRead tinyConf oneByte true
        (fun _ c => if c ≤ 3 then .ok Bytes.zeros else .error .eio) 1 (2 ^ 64 - 1)
          Bytes.zeros).2.copies = [⟨2, 1, 0, 4095⟩, ⟨3, 0, 4095, 4096⟩] := by
  refine ⟨by decide, by decide, ?_, by decide +kernel, by decide +kernel⟩
  rintro ⟨-, hlt⟩
  exact absurd hlt (by decide)

end Minipython.Shfs
