/-
# Minipython.Shfs.Volume — the mounted hash table (shfs.h, shfs_btable.h, shfs.c)

`load_vol_hconf` takes the geometry of the table from the configuration chunk, and `load_vol_htable`
reads the table chunks into the chunk cache and feeds one bucket entry per on-disk entry.

`Loaded v k tab` says what the loader has built after its first `k` entries from a table with the
entries `tab`: digests and entry bytes are those of `tab`, the element list is the slots in use in
index order, the default entry is the last one flagged so. `loadVolHtable_spec` is the loop.

The table on disk is read chunk by chunk, and the number of an entry is its place in the chunks, whatever
bucket its digest belongs to. `Vol.slot` is the slot of an entry number, and it reaches each slot once when
the dimensions multiply to the number of entries (`Sized`). A read that fails ends the mount; nothing is
said about a table of which a part was read.
-/
import Minipython.Shfs.Htable

namespace Minipython.Shfs

open Minipython.Lib

/-! ## The configuration of a volume -/

/-- What `load_vol_cconf` and `load_vol_hconf` have accepted. -/
structure VolConf where
  geom : VolGeom
  hdr : HdrConfig
  htableLen_ne : shfsHtableSizeChunks hdr geom.chunksize ≠ 0

namespace VolConf

variable (c : VolConf)

def htableRef : Nat := c.hdr.htableRef.toNat
def htableNbBuckets : Nat := c.hdr.htableBucketCount.toNat
def htableNbEntriesPerBucket : Nat := c.hdr.htableEntriesPerBucket.toNat
def htableNbEntries : Nat := shfsHtableNbEntries c.hdr
def htableNbEntriesPerChunk : Nat := shfsHentriesPerChunk c.geom.chunksize
def htableLen : Nat := shfsHtableSizeChunks c.hdr c.geom.chunksize
def hlen : Nat := c.hdr.hlen.toNat

/-- The volume chunk with the number `i` in the table: `shfs_vol.htable_ref + i`. -/
def htableChunk (i : Nat) : Nat := wrap64 (c.htableRef + i)

theorem entriesPerChunk_pos : 0 < c.htableNbEntriesPerChunk := shfsHentriesPerChunk_pos c.geom

theorem nbEntries_le : c.htableNbEntries ≤ c.htableNbBuckets * c.htableNbEntriesPerBucket :=
  shfsHtableNbEntries_le c.hdr

theorem nbEntries_lt : c.htableNbEntries < u32Size := UInt32.toNat_lt _

theorem nbBuckets_le : c.htableNbBuckets ≤ u32Size := le_of_lt (UInt32.toNat_lt _)

theorem nbEntriesPerBucket_le : c.htableNbEntriesPerBucket ≤ u32Size := le_of_lt (UInt32.toNat_lt _)

/-- The table length in chunks is the entry count divided by the entries of a chunk, rounded up. -/
theorem htableLen_eq :
    c.htableLen = (c.htableNbEntries + c.htableNbEntriesPerChunk - 1) / c.htableNbEntriesPerChunk := by
  refine divRoundUp_eq ?_ c.entriesPerChunk_pos
  have h1 := c.nbEntries_lt
  have h2 : shfsHentriesPerChunk c.geom.chunksize ≤ 32768 * 16 :=
    le_trans (Nat.div_le_self _ _) c.geom.chunksize_bounds.2
  unfold htableNbEntries at h1
  simp only [u32Size, u64Size] at *
  omega

/-- Every entry lies in a chunk of the table. -/
theorem nbEntries_le_len : c.htableNbEntries ≤ c.htableLen * c.htableNbEntriesPerChunk := by
  have hp := c.entriesPerChunk_pos
  rw [htableLen_eq]
  have h := Nat.lt_div_mul_add (a := c.htableNbEntries + c.htableNbEntriesPerChunk - 1) hp
  omega

/-- When the entries fill their last chunk, the chunks hold nothing else. -/
theorem htableLen_mul (h : c.htableNbEntriesPerChunk ∣ c.htableNbEntries) :
    c.htableLen * c.htableNbEntriesPerChunk = c.htableNbEntries := by
  have hp := c.entriesPerChunk_pos
  obtain ⟨q, hq⟩ := h
  rw [c.htableLen_eq, hq, Nat.add_sub_assoc hp, Nat.mul_add_div hp,
    Nat.div_eq_of_lt (Nat.sub_lt hp Nat.one_pos), Nat.add_zero, Nat.mul_comm]

theorem nbEntries_pos : 0 < c.htableNbEntries := by
  refine Nat.pos_of_ne_zero fun h0 => c.htableLen_ne ?_
  show c.htableLen = 0
  rw [htableLen_eq, h0]
  exact Nat.div_eq_of_lt (by have := c.entriesPerChunk_pos; omega)

end VolConf

/-- `load_vol_hconf` after its chunk is read. -/
def loadVolHconf (g : VolGeom) (hdr : HdrConfig) : Except Errno VolConf :=
  if h : shfsHtableSizeChunks hdr g.chunksize = 0 then .error .enoent else .ok ⟨g, hdr, h⟩

/-! ## The mounted table -/

/-- `struct shfs_bentry`. The `hentry` pointer is the place of the entry in the chunk cache. -/
structure Bentry where
  hentryHtchunk : Nat
  hentryHtoffset : Nat
  refcount : UInt32
  /-- the count of the semaphore -/
  updatelock : Nat
  update : Bool
  cookie : Option Nat
  deriving DecidableEq, Repr

/-- A bentry in freshly cleared bucket memory. -/
def Bentry.cleared : Bentry := ⟨0, 0, 0, 0, false, none⟩

/-- The part of `struct vol_info` that belongs to the hash table. -/
structure Vol where
  conf : VolConf
  bt : Htable
  htableChunkCache : Nat → Bytes
  bentry : HtableEl → Bentry
  defBentry : Option HtableEl

namespace Vol

/-- The entry bytes behind `bentry->hentry`. -/
def hentry (v : Vol) (el : HtableEl) : Hentry :=
  Bytes.window (v.htableChunkCache (v.bentry el).hentryHtchunk) (v.bentry el).hentryHtoffset

/-- Overwrite one bentry. -/
def setBentry (v : Vol) (el : HtableEl) (b : Bentry) : Vol :=
  { v with bentry := Function.update v.bentry el b }

end Vol

/-- The entry with the number `i` in the chunks of a table. -/
def tableEntry (conf : VolConf) (chk : Nat → Bytes) (i : Nat) : Hentry :=
  Bytes.window (chk (shfsHtableChunkNo i conf.htableNbEntriesPerChunk))
    (shfsHtableEntryOffset i conf.htableNbEntriesPerChunk)

/-- The body of the feeding loop of `load_vol_htable`. -/
def loadEntry (v : Vol) (i : Nat) : Except Fault Vol := do
  let c := shfsHtableChunkNo i v.conf.htableNbEntriesPerChunk
  let off := shfsHtableEntryOffset i v.conf.htableNbEntriesPerChunk
  let hentry : Hentry := Bytes.window (v.htableChunkCache c) off
  let (el, bt) ← shfsBtableFeed v.bt i hentry
  let bentry : Bentry :=
    { v.bentry el with
      hentryHtchunk := c, hentryHtoffset := off, refcount := 0, update := false, updatelock := 1 }
  let v := { v with bt := bt, bentry := Function.update v.bentry el bentry }
  return if hentry.isDefault then { v with defBentry := some el } else v

/-- The volume `load_vol_htable` starts feeding: the chunks are read, the bucket table is allocated. -/
def emptyVol (conf : VolConf) (chk : Nat → Bytes) : Vol where
  conf := conf
  bt := allocHtable conf.htableNbBuckets conf.htableNbEntriesPerBucket conf.hlen
  htableChunkCache := chk
  bentry := fun _ => Bentry.cleared
  defBentry := none

/-- `load_vol_htable`, where `rd` is the outcome of reading a volume chunk (`none` is an I/O error). -/
def loadVolHtable (conf : VolConf) (rd : Nat → Option Bytes) : Except Fault (Except Errno Vol) :=
  if (List.range conf.htableLen).all fun c => (rd (conf.htableChunk c)).isSome then do
    let chk := fun c => (rd (conf.htableChunk c)).getD Bytes.zeros
    let v ← (List.range conf.htableNbEntries).foldlM loadEntry (emptyVol conf chk)
    return .ok v
  else return .error .eio

/-! ## What the loader builds -/

namespace Vol

/-- The slot of the entry number `i`. -/
def slot (v : Vol) (i : Nat) : HtableEl := v.bt.slot i

section SetBentry

variable (v : Vol) (el : HtableEl) (b : Bentry)

@[simp] theorem setBentry_conf : (v.setBentry el b).conf = v.conf := rfl
@[simp] theorem setBentry_bt : (v.setBentry el b).bt = v.bt := rfl
@[simp] theorem setBentry_chunkCache :
    (v.setBentry el b).htableChunkCache = v.htableChunkCache := rfl
@[simp] theorem setBentry_defBentry : (v.setBentry el b).defBentry = v.defBentry := rfl
@[simp] theorem setBentry_slot (i : Nat) : (v.setBentry el b).slot i = v.slot i := rfl
@[simp] theorem setBentry_bentry :
    (v.setBentry el b).bentry = Function.update v.bentry el b := rfl

end SetBentry

/-- The dimensions of the bucket table are those of the configuration. -/
def Sized (v : Vol) : Prop :=
  v.bt.nbBkts = v.conf.htableNbBuckets ∧ v.bt.elPerBkt = v.conf.htableNbEntriesPerBucket ∧
    v.bt.hlen = v.conf.hlen

/-- The slots that hold one of the first `k` entries of a table with a digest that is not zero. -/
def usedSlots (v : Vol) (tab : Nat → Hentry) (k : Nat) : List HtableEl :=
  ((List.range k).filter fun i => !hashIsZero (tab i) v.conf.hlen).map v.slot

/-- The last of the first `k` entries that has the default flag. -/
def lastDefault (tab : Nat → Hentry) (k : Nat) : Option Nat :=
  ((List.range k).filter fun i => (tab i).isDefault).getLast?

theorem usedSlots_succ (v : Vol) (tab : Nat → Hentry) (k : Nat) :
    v.usedSlots tab (k + 1) =
      v.usedSlots tab k ++ if hashIsZero (tab k) v.conf.hlen then [] else [v.slot k] := by
  simp only [usedSlots, List.range_succ, List.filter_append, List.map_append]
  congr 1
  by_cases hz : hashIsZero (tab k) v.conf.hlen = true <;> simp [hz]

theorem lastDefault_succ (tab : Nat → Hentry) (k : Nat) :
    lastDefault tab (k + 1) = if (tab k).isDefault then some k else lastDefault tab k := by
  simp only [lastDefault, List.range_succ, List.filter_append]
  by_cases hd : (tab k).isDefault = true <;> simp [hd]

theorem mem_usedSlots {v : Vol} {tab : Nat → Hentry} {k : Nat} {el : HtableEl} :
    el ∈ v.usedSlots tab k ↔ ∃ i, i < k ∧ hashIsZero (tab i) v.conf.hlen = false ∧ v.slot i = el := by
  simp [usedSlots, and_assoc]

/-- Entry numbers are slots of the table. -/
theorem Sized.lt {v : Vol} (h : v.Sized) {i : Nat} (hi : i < v.conf.htableNbEntries) :
    i < v.bt.nbBkts * v.bt.elPerBkt := by
  rw [h.1, h.2.1]
  exact lt_of_lt_of_le hi v.conf.nbEntries_le

/-- The state of the loader behind its first `k` entries. -/
structure Loaded (v : Vol) (k : Nat) (tab : Nat → Hentry) : Prop where
  sized : v.Sized
  listed : v.bt.Listed (v.usedSlots tab k)
  hash : ∀ i, i < k → SameHash v.conf.hlen (v.bt.h (v.slot i)) (tab i)
  place : ∀ i, i < k → (v.bentry (v.slot i)).hentryHtchunk =
      shfsHtableChunkNo i v.conf.htableNbEntriesPerChunk ∧
    (v.bentry (v.slot i)).hentryHtoffset = shfsHtableEntryOffset i v.conf.htableNbEntriesPerChunk
  idle : ∀ i, i < k → (v.bentry (v.slot i)).refcount = 0 ∧ (v.bentry (v.slot i)).update = false ∧
    (v.bentry (v.slot i)).updatelock = 1
  rest : ∀ el, (∀ i, i < k → v.slot i ≠ el) → v.bentry el = Bentry.cleared
  dflt : v.defBentry = (lastDefault tab k).map v.slot

end Vol

open Vol

theorem emptyVol_loaded (conf : VolConf) (chk : Nat → Bytes) (tab : Nat → Hentry) :
    (emptyVol conf chk).Loaded 0 tab where
  sized := ⟨rfl, rfl, rfl⟩
  listed := Htable.listed_alloc _ _ _
  hash := fun i hi => absurd hi (Nat.not_lt_zero i)
  place := fun i hi => absurd hi (Nat.not_lt_zero i)
  idle := fun i hi => absurd hi (Nat.not_lt_zero i)
  rest := fun _ _ => rfl
  dflt := rfl

/-- The fresh slot was in no list, so feeding it only appends. -/
theorem Vol.Loaded.filter_slot {v : Vol} {k : Nat} {tab : Nat → Hentry} :
    (v.usedSlots tab k).filter (· ≠ v.slot k) = v.usedSlots tab k := by
  refine List.filter_eq_self.2 fun el hel => ?_
  obtain ⟨i, hi, -, rfl⟩ := mem_usedSlots.1 hel
  simpa using fun he : v.slot i = v.slot k => absurd (Htable.slot_injective he) (by omega)

/-- Feeding one more entry. -/
theorem loadEntry_spec {v : Vol} {k : Nat} {tab : Nat → Hentry} (h : v.Loaded k tab)
    (hk : k < v.conf.htableNbEntries) (htab : tab k = tableEntry v.conf v.htableChunkCache k) :
    ∃ v', loadEntry v k = .ok v' ∧ v'.conf = v.conf ∧ v'.htableChunkCache = v.htableChunkCache ∧
      v'.Loaded (k + 1) tab := by
  have hlen : v.bt.hlen = v.conf.hlen := h.sized.2.2
  obtain ⟨bt, hfeed, hg, hbh, hlisted⟩ := feed_spec h.listed (tab k) (h.sized.lt hk)
    (h.sized.1 ▸ v.conf.nbBuckets_le) (h.sized.2.1 ▸ v.conf.nbEntriesPerBucket_le)
  have hslot : ∀ i, bt.slot i = v.slot i := hg.slot
  change bt.h = Function.update v.bt.h (v.slot k) (hashCopy (v.bt.h (v.slot k)) (tab k) v.bt.hlen)
    at hbh
  have hne : ∀ {i}, i < k → v.slot i ≠ v.slot k := fun hi he =>
    absurd (Htable.slot_injective he) (by omega)
  rw [show v.bt.slot k = v.slot k from rfl, Loaded.filter_slot, hlen, ← usedSlots_succ] at hlisted
  -- the new bentry and the volume that holds it
  set b : Bentry :=
    { v.bentry (v.slot k) with
      hentryHtchunk := shfsHtableChunkNo k v.conf.htableNbEntriesPerChunk
      hentryHtoffset := shfsHtableEntryOffset k v.conf.htableNbEntriesPerChunk
      refcount := 0, update := false, updatelock := 1 } with hb
  refine ⟨{ v with
      bt := bt, bentry := Function.update v.bentry (v.slot k) b
      defBentry := if (tab k).isDefault then some (v.slot k) else v.defBentry }, ?_, rfl, rfl, ?_⟩
  · have hent : Bytes.window
        (v.htableChunkCache (shfsHtableChunkNo k v.conf.htableNbEntriesPerChunk))
        (shfsHtableEntryOffset k v.conf.htableNbEntriesPerChunk) = tab k := htab.symm
    unfold loadEntry
    simp only [hent, hfeed]
    show Except.ok _ = _
    split <;> rfl
  have hslot' : ∀ i, Vol.slot { v with
      bt := bt, bentry := Function.update v.bentry (v.slot k) b
      defBentry := if (tab k).isDefault then some (v.slot k) else v.defBentry } i = v.slot i := hslot
  constructor
  case sized => exact ⟨hg.1.trans h.sized.1, hg.2.1.trans h.sized.2.1, hg.2.2.trans h.sized.2.2⟩
  case listed => simpa only [usedSlots, hslot', funext hslot'] using hlisted
  case hash =>
      intro i hi
      rw [hslot']
      show SameHash v.conf.hlen (bt.h (v.slot i)) (tab i)
      rw [hbh]
      by_cases hik : i = k
      · subst hik
        simpa [hlen] using hashCopy_same (v.bt.h (v.slot i)) (tab i) v.conf.hlen
      · have hi' : i < k := by omega
        rw [Function.update_of_ne (hne hi')]
        exact h.hash i hi'
  case place =>
      intro i hi
      simp only [hslot']
      by_cases hik : i = k
      · subst hik
        simp [hb]
      · have hi' : i < k := by omega
        simpa [hne hi'] using h.place i hi'
  case idle =>
      intro i hi
      simp only [hslot']
      by_cases hik : i = k
      · subst hik
        simp [hb]
      · have hi' : i < k := by omega
        simpa [hne hi'] using h.idle i hi'
  case rest =>
      intro el hel
      simp only [hslot'] at hel
      show Function.update v.bentry (v.slot k) b el = _
      rw [Function.update_of_ne (hel k (by omega)).symm]
      exact h.rest el fun i hi => hel i (by omega)
  case dflt =>
      rw [lastDefault_succ]
      show (if (tab k).isDefault then some (v.slot k) else v.defBentry) = Option.map bt.slot _
      rw [show bt.slot = v.slot from funext hslot, h.dflt]
      by_cases hd : (tab k).isDefault = true <;> simp [hd]

/-- The feeding loop. -/
theorem loadEntries_spec (conf : VolConf) (chk : Nat → Bytes) {n : Nat}
    (hn : n ≤ conf.htableNbEntries) :
    ∃ v, (List.range n).foldlM loadEntry (emptyVol conf chk) = .ok v ∧ v.conf = conf ∧
      v.htableChunkCache = chk ∧ v.Loaded n (tableEntry conf chk) := by
  induction n with
  | zero => exact ⟨_, rfl, rfl, rfl, emptyVol_loaded conf chk _⟩
  | succ n ih =>
      obtain ⟨v, hv, hconf, hchk, hload⟩ := ih (by omega)
      obtain ⟨v', hv', hconf', hchk', hload'⟩ := loadEntry_spec hload (by rw [hconf]; omega)
        (by rw [hconf, hchk])
      refine ⟨v', ?_, hconf'.trans hconf, hchk'.trans hchk, hload'⟩
      rw [List.range_succ, List.foldlM_append, hv]
      show (List.foldlM loadEntry v [n]) = _
      rw [List.foldlM_cons, hv']
      rfl

/-- Loading a table whose chunks are all readable succeeds. -/
theorem loadVolHtable_spec (conf : VolConf) (rd : Nat → Option Bytes)
    (hrd : ∀ c, c < conf.htableLen → (rd (conf.htableChunk c)).isSome = true) :
    ∃ v, loadVolHtable conf rd = .ok (.ok v) ∧ v.conf = conf ∧
      (v.htableChunkCache = fun c => (rd (conf.htableChunk c)).getD Bytes.zeros) ∧
      v.Loaded conf.htableNbEntries (tableEntry conf v.htableChunkCache) := by
  obtain ⟨v, hv, hconf, hchk, hload⟩ := loadEntries_spec conf
    (fun c => (rd (conf.htableChunk c)).getD Bytes.zeros) le_rfl
  refine ⟨v, ?_, hconf, hchk, by rwa [hchk]⟩
  have hall : ((List.range conf.htableLen).all fun c => (rd (conf.htableChunk c)).isSome) = true := by
    simpa using hrd
  unfold loadVolHtable
  simp only [if_pos hall, hv]
  rfl

/-- A chunk that cannot be read fails the loader. -/
theorem loadVolHtable_eio {conf : VolConf} {rd : Nat → Option Bytes}
    (h : ¬ ∀ c, c < conf.htableLen → (rd (conf.htableChunk c)).isSome = true) :
    loadVolHtable conf rd = .ok (.error .eio) := by
  unfold loadVolHtable
  rw [if_neg (by simpa using h)]
  rfl

/-- The loader fails on an I/O error only. -/
theorem loadVolHtable_cases (conf : VolConf) (rd : Nat → Option Bytes) :
    loadVolHtable conf rd = .ok (.error .eio) ∨
      ∃ v, loadVolHtable conf rd = .ok (.ok v) ∧ v.conf = conf ∧
        v.Loaded conf.htableNbEntries (tableEntry conf v.htableChunkCache) := by
  by_cases h : ∀ c, c < conf.htableLen → (rd (conf.htableChunk c)).isSome = true
  · right
    obtain ⟨v, hv, hconf, -, hload⟩ := loadVolHtable_spec conf rd h
    exact ⟨v, hv, hconf, hload⟩
  · exact .inl (loadVolHtable_eio h)

/-- Every table content can be mounted. -/
theorem exists_load (conf : VolConf) (disk : Nat → Bytes) :
    ∃ v, loadVolHtable conf (fun c => some (disk c)) = .ok (.ok v) := by
  obtain ⟨v, hv, -⟩ := loadVolHtable_spec conf (fun c => some (disk c)) fun _ _ => rfl
  exact ⟨v, hv⟩

end Minipython.Shfs
