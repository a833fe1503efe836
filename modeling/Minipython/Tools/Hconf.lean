/-
# Minipython.Tools.Hconf — what load_vol_hconf accepts (shfs.c, shfs_admin.c)

`load_vol_hconf` takes the layout of the hash table from the configuration chunk. Its check is that the
table has a length; the fields themselves stay as they are on disk, in the unikernel and in the tools.
`Usable` says what mount, lookup and listing rely on, and `hconf_usable_iff` which fields give it.

`Usable` has a field for each reliance: digests that fit into a `hash512_t`, a number of entries that is the
product of its factors, a table inside the volume, and a backup inside the volume if there is one.
`FieldsOk` are the same statements about the fields on disk, in numbers without a bound. The equivalence is
where the bounds of the arithmetic come in: the number of entries is a product of 32 bits, the number of
chunks a quotient rounded up, the end of the table a sum of 64 bits.

`shfs_mkfs` makes these checks on what it is asked for. What it writes is so accepted and usable; a
configuration from elsewhere need not be.
-/
import Minipython.Shfs.HashWords
import Minipython.Shfs.MountAtomic
import Minipython.Tools.Admin

namespace Minipython.Tools.Admin

open Minipython.Shfs

/-! ## The configuration in memory -/

/-- The fields of `shfs_vol` that `load_vol_hconf` sets. -/
structure Hconf where
  htableRef : Nat
  htableBakRef : Nat
  htableNbBuckets : Nat
  htableNbEntriesPerBucket : Nat
  htableNbEntries : Nat
  htableNbEntriesPerChunk : Nat
  htableLen : Nat
  hlen : Nat
  deriving DecidableEq, Repr

/-- The assignments of `load_vol_hconf`. -/
def hconfOf (chunksize : Nat) (hdr : HdrConfig) : Hconf where
  htableRef := hdr.htableRef.toNat
  htableBakRef := hdr.htableBakRef.toNat
  htableNbBuckets := hdr.htableBucketCount.toNat
  htableNbEntriesPerBucket := hdr.htableEntriesPerBucket.toNat
  htableNbEntries := shfsHtableNbEntries hdr
  htableNbEntriesPerChunk := shfsHentriesPerChunk chunksize
  htableLen := shfsHtableSizeChunks hdr chunksize
  hlen := hdr.hlen.toNat

/-- `load_vol_hconf` of shfs_admin.c, behind the read of the chunk. -/
def loadVolHconf (chunksize : UInt32) (hdr : HdrConfig) : Except Stop Hconf :=
  -- a chunk size that has wrapped to zero divides by zero
  if shfsHentriesPerChunk chunksize.toNat = 0 then .error .died
  else if shfsHtableSizeChunks hdr chunksize.toNat = 0 then .error .died
  else .ok (hconfOf chunksize.toNat hdr)

/-- A configuration chunk that is accepted for a volume with that chunk size and that `volsize`. -/
inductive HconfLoaded (hdr : HdrConfig) : Nat → UInt64 → Hconf → Prop
  | unikernel {env : Shfs.MountEnv} {info : Shfs.VolInfo} {log : Log} {conf : VolConf}
      (label : loadVolCconf env = .ok (.ok info, log))
      (chunk : Shfs.loadVolHconf info.geom hdr = .ok conf) :
      HconfLoaded hdr info.geom.chunksize info.volsize (hconfOf conf.geom.chunksize conf.hdr)
  | admin {chunksize : UInt32} {volsize : UInt64} {c : Hconf}
      (chunk : loadVolHconf chunksize hdr = .ok c) : HconfLoaded hdr chunksize.toNat volsize c

/-! ## What mount, lookup and listing rely on -/

/-- The digest operations of mount, lookup and listing. -/
inductive DigestOp where
  | copy (dst src : Hash512)
  | compare (h0 h1 : Hash512)
  | isZero (h : Hash512)
  | clear (h : Hash512)
  | bktNo (h : Hash512)
  | unparse (h : Hash512)

/-- The operation touches no byte behind the digest. -/
def DigestOp.Stays (hlen : Nat) : DigestOp → Prop
  | .copy dst src => (hashCopyWords dst src hlen).isSome = true
  | .compare h0 h1 => (hashCompareWords h0 h1 hlen).isSome = true
  | .isZero h => (hashIsZeroWords h hlen).isSome = true
  | .clear h => (hashClearWords h hlen).isSome = true
  | .bktNo _ => htableBktNoLoad hlen ≤ hash512Size
  | .unparse h => (hashUnparse h hlen).isSome = true

/-- The chunks of a region behind `ref`, as they are addressed, are chunks of the volume behind the label. -/
def RegionInside (ref len : Nat) (volsize : UInt64) : Prop :=
  ∀ i, i < len → 2 ≤ wrap64 (ref + i) ∧ wrap64 (ref + i) ≤ volsize.toNat

/-- A configuration that can be used. -/
structure Usable (c : Hconf) (volsize : UInt64) : Prop where
  hlen_pos : 1 ≤ c.hlen
  hlen_le : c.hlen ≤ 64
  nbEntries : c.htableNbEntries = c.htableNbBuckets * c.htableNbEntriesPerBucket
  /-- the slot `e` of the bucket `b` has its entry in a chunk of the table -/
  slots : ∀ b e, b < c.htableNbBuckets → e < c.htableNbEntriesPerBucket → ∃ i, i < c.htableNbEntries ∧
    (i / c.htableNbEntriesPerBucket, i % c.htableNbEntriesPerBucket) = (b, e) ∧
    shfsHtableChunkNo i c.htableNbEntriesPerChunk < c.htableLen
  table : RegionInside c.htableRef c.htableLen volsize
  backup : c.htableBakRef ≠ 0 → RegionInside c.htableBakRef c.htableLen volsize
  digests : ∀ op : DigestOp, op.Stays c.hlen

/-! ## The fields that give it -/

/-- A region of table chunks fits behind the label, without wrap-around. -/
def Fits (chunksize : Nat) (volsize : UInt64) (hdr : HdrConfig) (ref : UInt64) : Prop :=
  2 ≤ ref.toNat ∧ ref.toNat +
    (hdr.htableBucketCount.toNat * hdr.htableEntriesPerBucket.toNat + chunksize / shfsHentrySize - 1) /
      (chunksize / shfsHentrySize) ≤ volsize.toNat + 1

/-- The checks that `load_vol_hconf` leaves out. -/
def FieldsOk (chunksize : Nat) (volsize : UInt64) (hdr : HdrConfig) : Prop :=
  (1 ≤ hdr.hlen.toNat ∧ hdr.hlen.toNat ≤ 64) ∧
    hdr.htableBucketCount.toNat * hdr.htableEntriesPerBucket.toNat < u32Size ∧
    Fits chunksize volsize hdr hdr.htableRef ∧
    (hdr.htableBakRef ≠ 0 → Fits chunksize volsize hdr hdr.htableBakRef)

section Fields

variable {cs : Nat} {volsize : UInt64} {hdr : HdrConfig} {c : Hconf}

instance (ref : UInt64) : Decidable (Fits cs volsize hdr ref) := inferInstanceAs (Decidable (_ ∧ _))

instance : Decidable (FieldsOk cs volsize hdr) := inferInstanceAs (Decidable (_ ∧ _ ∧ _ ∧ _))

/-- Both copies make the same assignments, for a table with a length. -/
theorem HconfLoaded.eq (h : HconfLoaded hdr cs volsize c) :
    c = hconfOf cs hdr ∧ 0 < shfsHentriesPerChunk cs ∧ cs < u32Size ∧ shfsHtableSizeChunks hdr cs ≠ 0 := by
  cases h with
  | @unikernel env info log conf label chunk =>
      unfold Shfs.loadVolHconf at chunk
      split at chunk
      · cases chunk
      · rename_i hlen
        obtain rfl := Except.ok.inj chunk
        have hcs := info.geom.chunksize_bounds.2
        exact ⟨rfl, shfsHentriesPerChunk_pos _, lt_of_le_of_lt hcs (by decide), hlen⟩
  | @admin chunksize _ _ chunk =>
      unfold loadVolHconf at chunk
      split at chunk
      · cases chunk
      · rename_i hpos
        split at chunk
        · cases chunk
        · rename_i hlen
          obtain rfl := Except.ok.inj chunk
          exact ⟨rfl, Nat.pos_of_ne_zero hpos, chunksize.toNat_lt, hlen⟩

/-- The digest operations stay inside a digest of at most 64 bytes, and `hash_copy` inside no longer one. -/
theorem digestOps_stay_iff (hlen : Nat) : (∀ op : DigestOp, op.Stays hlen) ↔ hlen ≤ 64 := by
  constructor
  · intro h
    by_contra hlt
    have hcopy : (hashCopyWords Lib.Bytes.zeros Lib.Bytes.zeros hlen).isSome = true := h (.copy _ _)
    rw [hashCopyWords_none (Nat.not_le.1 hlt)] at hcopy
    cases hcopy
  · intro hl op
    cases op with
    | copy dst src => exact Option.isSome_iff_exists.2 ⟨_, hashCopyWords_eq hl⟩
    | compare h0 h1 => exact Option.isSome_iff_exists.2 ⟨_, hashCompareWords_eq hl⟩
    | isZero h => exact Option.isSome_iff_exists.2 ⟨_, hashIsZeroWords_eq hl⟩
    | clear h => exact Option.isSome_iff_exists.2 ⟨_, hashClearWords_eq hl⟩
    | bktNo h =>
        show htableBktNoLoad hlen ≤ hash512Size
        unfold htableBktNoLoad
        split <;> decide
    | unparse h => exact hashUnparse_isSome.2 hl

/-- The 32-bit product is the product exactly when that fits. -/
theorem nbEntries_eq_iff : shfsHtableNbEntries hdr =
      hdr.htableBucketCount.toNat * hdr.htableEntriesPerBucket.toNat ↔
    hdr.htableBucketCount.toNat * hdr.htableEntriesPerBucket.toNat < u32Size := by
  unfold shfsHtableNbEntries
  rw [UInt32.toNat_mul, Nat.mul_comm]
  constructor
  · intro h
    rw [← h]
    exact Nat.mod_lt _ (by decide)
  · exact Nat.mod_eq_of_lt

/-- The length of the table in chunks, rounded up. -/
theorem sizeChunks_eq (hcs : cs < u32Size) (hpos : 0 < shfsHentriesPerChunk cs) :
    shfsHtableSizeChunks hdr cs =
      (shfsHtableNbEntries hdr + cs / shfsHentrySize - 1) / (cs / shfsHentrySize) := by
  refine divRoundUp_eq ?_ hpos
  have h1 : shfsHtableNbEntries hdr < u32Size := UInt32.toNat_lt _
  have h2 : shfsHentriesPerChunk cs ≤ cs := Nat.div_le_self _ _
  simp only [u32Size, u64Size] at *
  omega

/-- A region whose last address does not wrap, between two bounds. -/
theorem regionInside_iff {ref len : Nat} (href : ref < u64Size) (hlen : 0 < len) (volsize : UInt64) :
    RegionInside ref len volsize ↔ 2 ≤ ref ∧ ref + len ≤ volsize.toNat + 1 := by
  have hvol : volsize.toNat < u64Size := volsize.toNat_lt
  constructor
  · intro h
    have hfirst := h 0 hlen
    rw [Nat.add_zero, wrap64_of_lt href] at hfirst
    refine ⟨hfirst.1, ?_⟩
    by_contra hout
    -- the first chunk behind the volume is in the region
    have hlast := h (volsize.toNat + 1 - ref) (by omega)
    have heq : ref + (volsize.toNat + 1 - ref) = volsize.toNat + 1 := by omega
    rw [heq] at hlast
    obtain hmax | hlt : volsize.toNat + 1 = u64Size ∨ volsize.toNat + 1 < u64Size := by omega
    · rw [hmax] at hlast
      exact absurd hlast.1 (by decide)
    · rw [wrap64_of_lt hlt] at hlast
      omega
  · rintro ⟨hlow, hhigh⟩ i hi
    rw [wrap64_of_lt (by omega)]
    omega

/-- A configuration that is accepted can be used exactly when the fields pass the checks that are left out.
Usable is what the rest of the code relies on; the fields are those on disk, and the checks are on their
values as numbers without a bound. -/
theorem hconf_usable_iff (h : HconfLoaded hdr cs volsize c) : Usable c volsize ↔ FieldsOk cs volsize hdr := by
  obtain ⟨rfl, hpos, hcs, hne⟩ := h.eq
  have hlen : 0 < shfsHtableSizeChunks hdr cs := Nat.pos_of_ne_zero hne
  have hfits : shfsHtableNbEntries hdr =
      hdr.htableBucketCount.toNat * hdr.htableEntriesPerBucket.toNat → ∀ ref : UInt64,
        (RegionInside ref.toNat (shfsHtableSizeChunks hdr cs) volsize ↔ Fits cs volsize hdr ref) := by
    intro hentries ref
    rw [regionInside_iff ref.toNat_lt hlen, sizeChunks_eq hcs hpos, hentries]
    exact Iff.rfl
  have hbak : hdr.htableBakRef.toNat ≠ 0 ↔ hdr.htableBakRef ≠ 0 := by
    rw [Ne, Ne, ← UInt64.toNat_inj]
    rfl
  constructor
  · intro hu
    have hentries := hu.nbEntries
    exact ⟨⟨hu.hlen_pos, hu.hlen_le⟩, nbEntries_eq_iff.1 hentries, (hfits hentries _).1 hu.table,
      fun hb => (hfits hentries _).1 (hu.backup (hbak.2 hb))⟩
  · rintro ⟨⟨hpos', hle⟩, hprod, htable, hbackup⟩
    have hentries := nbEntries_eq_iff.2 hprod
    refine ⟨hpos', hle, hentries, ?_, (hfits hentries _).2 htable,
      fun hb => (hfits hentries _).2 (hbackup (hbak.1 hb)), (digestOps_stay_iff _).2 hle⟩
    intro b e hb he
    have hb' : b < hdr.htableBucketCount.toNat := hb
    have he' : e < hdr.htableEntriesPerBucket.toNat := he
    have hin : b * hdr.htableEntriesPerBucket.toNat + e < shfsHtableNbEntries hdr := by
      rw [hentries]
      calc b * hdr.htableEntriesPerBucket.toNat + e
          < b * hdr.htableEntriesPerBucket.toNat + hdr.htableEntriesPerBucket.toNat :=
            Nat.add_lt_add_left he' _
        _ = (b + 1) * hdr.htableEntriesPerBucket.toNat := (Nat.succ_mul _ _).symm
        _ ≤ hdr.htableBucketCount.toNat * hdr.htableEntriesPerBucket.toNat :=
            Nat.mul_le_mul_right _ hb'
    refine ⟨b * hdr.htableEntriesPerBucket.toNat + e, hin, ?_, ?_⟩
    · show (_ / hdr.htableEntriesPerBucket.toNat, _ % hdr.htableEntriesPerBucket.toNat) = (b, e)
      have hpos : 0 < hdr.htableEntriesPerBucket.toNat := Nat.zero_lt_of_lt he'
      rw [Nat.mul_comm, Nat.mul_add_div hpos, Nat.div_eq_of_lt he', Nat.mul_add_mod, Nat.mod_eq_of_lt he',
        Nat.add_zero]
    · show shfsHtableChunkNo _ (cs / shfsHentrySize) < shfsHtableSizeChunks hdr cs
      rw [sizeChunks_eq hcs hpos]
      unfold shfsHtableChunkNo
      have hpos : 0 < cs / shfsHentrySize := hpos
      rw [Nat.div_lt_iff_lt_mul hpos]
      have hround := Nat.lt_div_mul_add (a := shfsHtableNbEntries hdr + cs / shfsHentrySize - 1) hpos
      omega

end Fields

/-- What the unikernel takes from the label of the tiny volume and from a configuration chunk. -/
theorem hconfLoaded_tiny (hdr : HdrConfig) (hlen : shfsHtableSizeChunks hdr 4096 ≠ 0) :
    HconfLoaded hdr 4096 3 (hconfOf 4096 hdr) := by
  obtain ⟨info, log, hlabel, hcs, hvol⟩ : ∃ info log, loadVolCconf Mount.tinyMount = .ok (.ok info, log) ∧
      info.geom.chunksize = 4096 ∧ info.volsize = 3 := ⟨_, _, rfl, rfl, rfl⟩
  have hchunk : Shfs.loadVolHconf info.geom hdr = .ok ⟨info.geom, hdr, hcs ▸ hlen⟩ := dif_neg (hcs ▸ hlen)
  have hloaded : HconfLoaded hdr info.geom.chunksize info.volsize (hconfOf info.geom.chunksize hdr) :=
    .unikernel hlabel hchunk
  rw [hcs, hvol] at hloaded
  exact hloaded

/-- A table of one entry on a volume of three chunks, as it is formatted. -/
theorem hconf_usable_iff_tiny :
    HconfLoaded ⟨2, 0, 2, 32, 1, 1, 0⟩ 4096 3 (hconfOf 4096 ⟨2, 0, 2, 32, 1, 1, 0⟩) ∧
      Usable (hconfOf 4096 ⟨2, 0, 2, 32, 1, 1, 0⟩) 3 := by
  have hloaded := hconfLoaded_tiny ⟨2, 0, 2, 32, 1, 1, 0⟩ (by decide)
  exact ⟨hloaded, (hconf_usable_iff hloaded).2 (by decide)⟩

/-- The same with digests of 65 bytes: both programs accept it, and copying a digest leaves it. -/
theorem hconf_unusable_digest :
    HconfLoaded ⟨2, 0, 2, 65, 1, 1, 0⟩ 4096 3 (hconfOf 4096 ⟨2, 0, 2, 65, 1, 1, 0⟩) ∧
      loadVolHconf 4096 ⟨2, 0, 2, 65, 1, 1, 0⟩ = .ok (hconfOf 4096 ⟨2, 0, 2, 65, 1, 1, 0⟩) ∧
      hashCopyWords Lib.Bytes.zeros Lib.Bytes.zeros 65 = none ∧
      ¬ Usable (hconfOf 4096 ⟨2, 0, 2, 65, 1, 1, 0⟩) 3 := by
  refine ⟨hconfLoaded_tiny _ (by decide), rfl, hashCopyWords_none (by decide), ?_⟩
  intro hu
  exact absurd hu.hlen_le (by decide)

end Minipython.Tools.Admin
