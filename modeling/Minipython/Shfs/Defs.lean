/-
# Minipython.Shfs.Defs — the on-disk format (shfs_defs.h) and the faults of C code

The geometry macros are kept as functions of their arguments, in the widths the C expressions have:
`SHFS_HTABLE_NB_ENTRIES` multiplies two 32-bit fields and wraps, the round-up division around it is
done in 64 bits because the entry size is a `size_t`.

A hash table entry stays raw memory. Its file and link attributes are a union, so both readings are
accessors of the same bytes.
-/
import Minipython.Lib.Bytes

namespace Minipython.Shfs

open Minipython.Lib

/-- How a C function can fail to return. -/
inductive Fault where
  /-- an `ASSERT` whose condition is false -/
  | assert
  /-- a `BUG_ON` whose condition is true -/
  | bugOn
  /-- an access through a null pointer -/
  | null
  deriving DecidableEq, Repr

/-- The `errno` values the modelled functions return. -/
inductive Errno where
  | eio
  | enoent
  | ebusy
  | ealready
  | einval
  | enodev
  | enomem
  | eagain
  deriving DecidableEq, Repr

/-- The number of values of a 32-bit unsigned integer. -/
abbrev u32Size : Nat := 2 ^ 32

/-- The number of values of a 64-bit unsigned integer. -/
abbrev u64Size : Nat := 2 ^ 64

/-- 64-bit unsigned wrap-around. -/
def wrap64 (n : Nat) : Nat := n % u64Size

theorem wrap64_of_lt {n : Nat} (h : n < u64Size) : wrap64 n = n := Nat.mod_eq_of_lt h

theorem wrap64_lt (n : Nat) : wrap64 n < u64Size := Nat.mod_lt _ (by norm_num [u64Size])

theorem wrap64_add (a b : Nat) : wrap64 (wrap64 a + b) = wrap64 (a + b) := Nat.mod_add_mod a u64Size b

/-- The difference of two values in wrapping arithmetic, the larger one first. -/
theorem wrap64_gap {a b : Nat} (hab : b ≤ a) (ha : a < u64Size) : wrap64 (a + u64Size - b) = a - b := by
  have heq : a + u64Size - b = a - b + u64Size := by omega
  unfold wrap64
  rw [heq, Nat.add_mod_right]
  exact Nat.mod_eq_of_lt (by omega)

/-! ## Stripe modes, flags and sizes -/

/-- The two stripe modes; `load_vol_cconf` rejects every other `member_stripemode`. -/
inductive StripeMode where
  | independent
  | combined
  deriving DecidableEq, Repr

def shfsEflagHidden : UInt8 := 0x1
def shfsEflagLink : UInt8 := 0x4
def shfsEflagDefault : UInt8 := 0x8

/-- `sizeof(struct shfs_hentry)`. The structure is packed, but its `packed` does not reach the type of
`l_attr`: there `rport` is aligned to 2, which leaves a byte of padding in front of it and makes the
union 108 bytes long. -/
def sizeofHentry : Nat := 245

/-- `SHFS_HENTRY_SIZE`: the entry size rounded up to 64. -/
def shfsHentrySize : Nat := 256

/-- `DIV_ROUND_UP` on 64-bit operands. -/
def divRoundUp (num div : Nat) : Nat := wrap64 (num + div - 1) / div

theorem divRoundUp_eq {num div : Nat} (h : num + div ≤ u64Size) (hd : 0 < div) :
    divRoundUp num div = (num + div - 1) / div := by
  unfold divRoundUp
  rw [wrap64_of_lt (by omega)]

/-! ## The configuration chunk and the geometry macros -/

/-- `struct shfs_hdr_config`, chunk 1 of a volume. -/
structure HdrConfig where
  htableRef : UInt64
  htableBakRef : UInt64
  hfunc : UInt8
  hlen : UInt8
  htableBucketCount : UInt32
  htableEntriesPerBucket : UInt32
  allocator : UInt8
  deriving DecidableEq, Repr

/-- `SHFS_CHUNKSIZE`. -/
def shfsChunksize (mode : StripeMode) (stripesize memberCount : Nat) : Nat :=
  match mode with
  | .combined => (stripesize * memberCount) % u32Size
  | .independent => stripesize

/-- The stripe layout of a volume, with what both `load_vol_cconf` and the tools check before they use
one: a power of two between 4096 and 32768, and 1 to 16 members. -/
structure VolGeom where
  stripemode : StripeMode
  stripesize : Nat
  nbMembers : Nat
  stripesize_ok : stripesize = 4096 ∨ stripesize = 8192 ∨ stripesize = 16384 ∨ stripesize = 32768
  nbMembers_pos : 0 < nbMembers
  nbMembers_le : nbMembers ≤ 16

namespace VolGeom

/-- The chunk size of the layout. -/
def chunksize (g : VolGeom) : Nat := shfsChunksize g.stripemode g.stripesize g.nbMembers

theorem chunksize_eq (g : VolGeom) :
    g.chunksize = match g.stripemode with
      | .combined => g.stripesize * g.nbMembers
      | .independent => g.stripesize := by
  obtain ⟨mode, s, n, hs, hn, hn'⟩ := g
  cases mode with
  | independent => rfl
  | combined =>
      show s * n % u32Size = s * n
      refine Nat.mod_eq_of_lt ?_
      have h1 : s ≤ 32768 := by omega
      have h2 : s * n ≤ 32768 * 16 := Nat.mul_le_mul h1 hn'
      exact lt_of_le_of_lt h2 (by decide)

theorem chunksize_bounds (g : VolGeom) : 4096 ≤ g.chunksize ∧ g.chunksize ≤ 32768 * 16 := by
  rw [chunksize_eq]
  obtain ⟨mode, s, n, hs, hn, hn'⟩ := g
  have h1 : 4096 ≤ s := by omega
  have h2 : s ≤ 32768 := by omega
  cases mode with
  | independent =>
      simp only
      omega
  | combined =>
      have h3 : 4096 * 1 ≤ s * n := Nat.mul_le_mul h1 hn
      have h4 : s * n ≤ 32768 * 16 := Nat.mul_le_mul h2 hn'
      simp only
      omega

/-- One member with stripes of 4096 bytes. -/
def single : VolGeom := ⟨.independent, 4096, 1, .inl rfl, Nat.one_pos, by decide⟩

/-- Two members with stripes of 4096 bytes. -/
def pair (mode : StripeMode) : VolGeom := ⟨mode, 4096, 2, single.stripesize_ok, Nat.two_pos, by decide⟩

end VolGeom

/-- `SHFS_HENTRIES_PER_CHUNK`. -/
def shfsHentriesPerChunk (chunksize : Nat) : Nat := chunksize / shfsHentrySize

/-- `SHFS_HTABLE_NB_ENTRIES`, a 32-bit product. -/
def shfsHtableNbEntries (c : HdrConfig) : Nat :=
  (c.htableEntriesPerBucket * c.htableBucketCount).toNat

theorem shfsHtableNbEntries_le (c : HdrConfig) :
    shfsHtableNbEntries c ≤ c.htableBucketCount.toNat * c.htableEntriesPerBucket.toNat := by
  unfold shfsHtableNbEntries
  rw [UInt32.toNat_mul, Nat.mul_comm]
  exact Nat.mod_le _ _

theorem shfsHentriesPerChunk_pos (g : VolGeom) : 0 < shfsHentriesPerChunk g.chunksize :=
  Nat.div_pos (le_trans (by decide) g.chunksize_bounds.1) (by decide)

/-- `SHFS_HTABLE_SIZE_CHUNKS`. -/
def shfsHtableSizeChunks (c : HdrConfig) (chunksize : Nat) : Nat :=
  divRoundUp (shfsHtableNbEntries c) (shfsHentriesPerChunk chunksize)

/-- `SHFS_HTABLE_CHUNK_NO`. -/
def shfsHtableChunkNo (hentryNo hentriesPerChunk : Nat) : Nat := hentryNo / hentriesPerChunk

/-- `SHFS_HTABLE_ENTRY_OFFSET`. -/
def shfsHtableEntryOffset (hentryNo hentriesPerChunk : Nat) : Nat :=
  (hentryNo % hentriesPerChunk) * shfsHentrySize

/-! ## Hash table entries -/

/-- `struct shfs_hentry` behind a pointer; the digest is its first field, at offset 0. -/
abbrev Hentry := Bytes

namespace Hentry

/-- `f_attr.chunk`. -/
def chunk (e : Hentry) : Nat := Bytes.le e 64 8
/-- `f_attr.offset`. -/
def offset (e : Hentry) : Nat := Bytes.le e 72 8
/-- `f_attr.len`. -/
def len (e : Hentry) : Nat := Bytes.le e 80 8
/-- `flags`, behind the digest, the union and `ts_creation`. -/
def flags (e : Hentry) : UInt8 := e 180

/-- `SHFS_HENTRY_ISDEFAULT`. -/
def isDefault (e : Hentry) : Bool := e.flags &&& shfsEflagDefault != 0

/-- `SHFS_HENTRY_ISLINK`. -/
def isLink (e : Hentry) : Bool := e.flags &&& shfsEflagLink != 0

end Hentry

/-- `memcpy(dst + off, src, sizeof(struct shfs_hentry))`. -/
def putHentry (dst : Bytes) (off : Nat) (src : Hentry) : Bytes :=
  Bytes.blit dst off src sizeofHentry

/-- Two entries have the same bytes. -/
def SameHentry (e e' : Hentry) : Prop := ∀ i, i < sizeofHentry → e i = e' i

theorem SameHentry.refl (e : Hentry) : SameHentry e e := fun _ _ => rfl

theorem SameHentry.symm {e e' : Hentry} (h : SameHentry e e') : SameHentry e' e :=
  fun i hi => (h i hi).symm

theorem SameHentry.trans {a b c : Hentry} (h : SameHentry a b) (h' : SameHentry b c) :
    SameHentry a c := fun i hi => (h i hi).trans (h' i hi)

theorem SameHentry.isDefault {e e' : Hentry} (h : SameHentry e e') :
    e.isDefault = e'.isDefault := by
  have hf : e 180 = e' 180 := h 180 (by decide)
  simp [Hentry.isDefault, Hentry.flags, hf]

theorem SameHentry.flags {e e' : Hentry} (h : SameHentry e e') : e.flags = e'.flags :=
  h 180 (by decide)

theorem SameHentry.isLink {e e' : Hentry} (h : SameHentry e e') : e.isLink = e'.isLink := by
  unfold Hentry.isLink
  rw [h.flags]

/-- The attributes of an entry are words of it. -/
theorem SameHentry.attrs {e e' : Hentry} (h : SameHentry e e') :
    e.chunk = e'.chunk ∧ e.offset = e'.offset ∧ e.len = e'.len := by
  have hword : ∀ off, off + 8 ≤ sizeofHentry → Bytes.le e off 8 = Bytes.le e' off 8 := fun off hoff =>
    Bytes.le_congr 8 fun i hi => h _ (by omega)
  exact ⟨hword 64 (by decide), hword 72 (by decide), hword 80 (by decide)⟩

theorem putHentry_same (dst : Bytes) (off : Nat) (src : Hentry) :
    SameHentry (Bytes.window (putHentry dst off src) off) src := fun _ hi =>
  Bytes.blit_inside hi

/-- Entries at distinct slots of a chunk do not overlap. -/
theorem putHentry_frame {dst : Bytes} {e e' : Nat} (src : Hentry) (h : e ≠ e') :
    SameHentry (Bytes.window (putHentry dst (e * shfsHentrySize) src) (e' * shfsHentrySize))
      (Bytes.window dst (e' * shfsHentrySize)) := by
  intro i hi
  refine Bytes.blit_outside ?_
  simp only [shfsHentrySize, sizeofHentry] at *
  omega

/-! ## The label -/

/-- `uuid_t`. -/
abbrev Uuid := BitVec 128

/-- The magic, the version and the byte order of a header. -/
def shfsMagic : List UInt8 := [0x53, 0x48, 0x46, 0x53]
def shfsMajor : UInt8 := 0x02
def shfsMinor : UInt8 := 0x01
def sboLittleendian : UInt8 := 0
def shfsSmIndependent : UInt8 := 0x0
def shfsSmCombined : UInt8 := 0x1

/-- `SHFS_MAX_NB_MEMBERS`. -/
def shfsMaxNbMembers : Nat := 16

/-- `struct shfs_hdr_common`. -/
structure HdrCommon where
  magic : List UInt8
  version : UInt8 × UInt8
  volByteorder : UInt8
  volSize : UInt64
  memberStripemode : UInt8
  memberStripesize : UInt32
  memberUuid : Uuid
  memberCount : UInt8
  member : Nat → Uuid

/-- The number of a stripe mode in the label. -/
def StripeMode.code : StripeMode → UInt8
  | .independent => shfsSmIndependent
  | .combined => shfsSmCombined

/-- `shfs_detect_hdr0`. -/
def shfsDetectHdr0 (h : HdrCommon) : Int :=
  if h.magic ≠ shfsMagic then -1
  else if h.version ≠ (shfsMajor, shfsMinor) then -2
  else if h.volByteorder ≠ sboLittleendian then -3
  else if h.memberCount = 0 ∨ h.memberCount.toNat > shfsMaxNbMembers then -4
  else 1

end Minipython.Shfs
