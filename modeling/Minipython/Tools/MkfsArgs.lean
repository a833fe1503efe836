/-
# Minipython.Tools.MkfsArgs — the arguments of shfs_mkfs

`parse_args` and the checks at the head of `main` decide which volumes can be formatted at all.
`MkfsArgs` is a set of arguments that passed them, with the checks as fields; `MkfsArgs.conf` is the
geometry a unikernel finds on such a volume.
-/
import Minipython.Shfs.Volume

namespace Minipython.Tools

open Minipython.Shfs

/-- The hash functions of the format. -/
inductive Shfunc where
  | sha
  | crc
  | md5
  | haval
  | manual
  deriving DecidableEq, Repr

/-- The number of a hash function in the configuration chunk. -/
def Shfunc.code : Shfunc → UInt8
  | .manual => 1
  | .sha => 2
  | .crc => 3
  | .md5 => 4
  | .haval => 5

/-- The hash length check of `parse_args`. -/
def hashlenOk : Shfunc → Nat → Bool
  | .sha, n => n == 20 || n == 28 || n == 32 || n == 48 || n == 64
  | .crc, n => n == 4
  | .md5, n => n == 16
  | .haval, n => n == 16 || n == 20 || n == 24 || n == 28 || n == 32
  | .manual, _ => true

/-- The arguments that matter for the volume, as `parse_args` and `main` accept them. -/
structure MkfsArgs where
  nbDevs : Nat
  stripesize : Nat
  combinedStriping : Bool
  hashfunc : Shfunc
  hashlen : Nat
  bucketCount : Nat
  entriesPerBucket : Nat
  nbDevs_pos : 0 < nbDevs
  nbDevs_le : nbDevs ≤ 16
  stripesize_ok : stripesize = 4096 ∨ stripesize = 8192 ∨ stripesize = 16384 ∨ stripesize = 32768
  hashlen_pos : 0 < hashlen
  hashlen_le : hashlen ≤ 64
  hashlen_ok : hashlenOk hashfunc hashlen = true
  bucketCount_pos : 0 < bucketCount
  entriesPerBucket_pos : 0 < entriesPerBucket
  entries_le : bucketCount * entriesPerBucket < u32Size

namespace MkfsArgs

variable (a : MkfsArgs)

/-- The stripe layout `main` hands to `mkfs`: one device is never combined. -/
def geom : VolGeom where
  stripemode := if a.combinedStriping && decide (1 < a.nbDevs) then .combined else .independent
  stripesize := a.stripesize
  nbMembers := a.nbDevs
  stripesize_ok := a.stripesize_ok
  nbMembers_pos := a.nbDevs_pos
  nbMembers_le := a.nbDevs_le

/-- The configuration chunk `mkfs` writes. -/
def hdrConfig : HdrConfig where
  htableRef := 2
  htableBakRef := 0
  hfunc := a.hashfunc.code
  hlen := UInt8.ofNat a.hashlen
  htableBucketCount := UInt32.ofNat a.bucketCount
  htableEntriesPerBucket := UInt32.ofNat a.entriesPerBucket
  allocator := 0

theorem bucketCount_lt : a.bucketCount < u32Size :=
  lt_of_le_of_lt (Nat.le_mul_of_pos_right _ a.entriesPerBucket_pos) a.entries_le

theorem entriesPerBucket_lt : a.entriesPerBucket < u32Size :=
  lt_of_le_of_lt (Nat.le_mul_of_pos_left _ a.bucketCount_pos) a.entries_le

theorem htableBucketCount_eq : a.hdrConfig.htableBucketCount.toNat = a.bucketCount := by
  show (UInt32.ofNat a.bucketCount).toNat = _
  rw [UInt32.toNat_ofNat']
  exact Nat.mod_eq_of_lt a.bucketCount_lt

theorem htableEntriesPerBucket_eq :
    a.hdrConfig.htableEntriesPerBucket.toNat = a.entriesPerBucket := by
  show (UInt32.ofNat a.entriesPerBucket).toNat = _
  rw [UInt32.toNat_ofNat']
  exact Nat.mod_eq_of_lt a.entriesPerBucket_lt

/-- The overflow check keeps the entry count a product. -/
theorem nbEntries_eq : shfsHtableNbEntries a.hdrConfig = a.bucketCount * a.entriesPerBucket := by
  unfold shfsHtableNbEntries
  rw [UInt32.toNat_mul, htableBucketCount_eq, htableEntriesPerBucket_eq, Nat.mul_comm]
  exact Nat.mod_eq_of_lt a.entries_le

/-- The configuration the unikernel loads. -/
def conf : VolConf where
  geom := a.geom
  hdr := a.hdrConfig
  htableLen_ne := by
    have hp := shfsHentriesPerChunk_pos a.geom
    have hn : 0 < shfsHtableNbEntries a.hdrConfig := by
      rw [nbEntries_eq]
      exact Nat.mul_pos a.bucketCount_pos a.entriesPerBucket_pos
    have hlt : shfsHtableNbEntries a.hdrConfig < u32Size := by
      rw [nbEntries_eq]
      exact a.entries_le
    have hc : shfsHentriesPerChunk a.geom.chunksize ≤ 32768 * 16 :=
      le_trans (Nat.div_le_self _ _) a.geom.chunksize_bounds.2
    unfold shfsHtableSizeChunks
    rw [divRoundUp_eq (by simp only [u32Size, u64Size] at *; omega) hp]
    exact Nat.ne_of_gt (Nat.div_pos (by omega) hp)

theorem loadVolHconf_eq : loadVolHconf a.geom a.hdrConfig = .ok a.conf := by
  unfold loadVolHconf
  exact dif_neg a.conf.htableLen_ne

theorem conf_nbEntries : a.conf.htableNbEntries = a.bucketCount * a.entriesPerBucket :=
  a.nbEntries_eq

theorem conf_nbBuckets : a.conf.htableNbBuckets = a.bucketCount := a.htableBucketCount_eq

theorem conf_nbEntriesPerBucket : a.conf.htableNbEntriesPerBucket = a.entriesPerBucket :=
  a.htableEntriesPerBucket_eq

end MkfsArgs

/-- One bucket with one entry on one member with 4096-byte chunks. -/
def tinyArgs : MkfsArgs where
  nbDevs := 1
  stripesize := 4096
  combinedStriping := false
  hashfunc := .sha
  hashlen := 32
  bucketCount := 1
  entriesPerBucket := 1
  nbDevs_pos := Nat.one_pos
  nbDevs_le := VolGeom.single.nbMembers_le
  stripesize_ok := VolGeom.single.stripesize_ok
  hashlen_pos := by decide
  hashlen_le := by decide
  hashlen_ok := rfl
  bucketCount_pos := Nat.one_pos
  entriesPerBucket_pos := Nat.one_pos
  entries_le := by decide

/-- The same with 16 entries, as many as fit into a chunk. -/
def chunkArgs : MkfsArgs :=
  { tinyArgs with
    entriesPerBucket := 16
    entriesPerBucket_pos := by decide
    entries_le := by decide }

/-- The same with digests of one byte that are given by hand. -/
def MkfsArgs.byHand (a : MkfsArgs) : MkfsArgs :=
  { a with
    hashfunc := .manual
    hashlen := 1
    hashlen_pos := Nat.one_pos
    hashlen_le := by decide
    hashlen_ok := rfl }

end Minipython.Tools
