/-
# Minipython.Tools.Table — the table of a mounted volume (shfs_admin.c)

`Table V v` is what every operation of a session keeps of the table in memory: the bucket table has the
dimensions of the volume and its element list is the slots in use, each bentry refers to the place of
its entry in the chunk cache, and the digest in a slot is that of its entry.

All changes of an entry go through `addHentry`. It changes one entry and marks its chunk; the lemmas
here say what it leaves alone.

The dimensions are those of the formatted volume, so a slot and the number of its entry determine each
other, and the numbers in sums and products stay far below their bounds. These facts have one lemma each in
front of the invariant.
-/
import Minipython.Shfs.HtableMap
import Minipython.Tools.Admin

namespace Minipython.Tools.Admin

open Minipython.Lib
open Minipython.Shfs
open Htable

/-! ## The geometry of a formatted volume -/

namespace Volume

variable (V : Volume) {i : Nat}

theorem hlen_eq : V.hlen = V.args.hashlen := by
  show (UInt8.ofNat V.args.hashlen).toNat = _
  rw [UInt8.toNat_ofNat']
  apply Nat.mod_eq_of_lt
  have := V.args.hashlen_le
  omega

theorem hlen_le : V.hlen ≤ 64 := by
  rw [V.hlen_eq]
  exact V.args.hashlen_le

theorem nbBuckets_eq : V.conf.htableNbBuckets = V.args.bucketCount := V.args.htableBucketCount_eq

theorem nbEntriesPerBucket_eq : V.conf.htableNbEntriesPerBucket = V.args.entriesPerBucket :=
  V.args.htableEntriesPerBucket_eq

/-- Every slot belongs to an entry. -/
theorem nbEntries_eq :
    V.conf.htableNbEntries = V.conf.htableNbBuckets * V.conf.htableNbEntriesPerBucket := by
  rw [V.nbBuckets_eq, V.nbEntriesPerBucket_eq]
  exact V.args.nbEntries_eq

theorem nbBuckets_pos : 0 < V.conf.htableNbBuckets := by
  rw [V.nbBuckets_eq]
  exact V.args.bucketCount_pos

/-- The chunk of an entry is one of the table. -/
theorem chunkNo_lt (hi : i < V.conf.htableNbEntries) :
    shfsHtableChunkNo i V.conf.htableNbEntriesPerChunk < V.htableLen := by
  apply (Nat.div_lt_iff_lt_mul V.conf.entriesPerChunk_pos).2
  exact Nat.lt_of_lt_of_le hi V.conf.nbEntries_le_len

theorem chunksize_bounds : 4096 ≤ V.chunksize ∧ V.chunksize ≤ 32768 * 16 :=
  V.args.geom.chunksize_bounds

theorem chunksize_pos : 0 < V.chunksize := lt_of_lt_of_le (by decide) V.chunksize_bounds.1

theorem chunksize_lt : V.chunksize < u64Size := lt_of_le_of_lt V.chunksize_bounds.2 (by decide)

/-- An entry ends in its chunk. -/
theorem entry_end (i : Nat) :
    shfsHtableEntryOffset i V.conf.htableNbEntriesPerChunk + shfsHentrySize ≤ V.chunksize := by
  have hmod : i % V.conf.htableNbEntriesPerChunk + 1 ≤ V.conf.htableNbEntriesPerChunk :=
    Nat.mod_lt _ V.conf.entriesPerChunk_pos
  have hmul := Nat.mul_le_mul_right shfsHentrySize hmod
  have hdiv : V.conf.htableNbEntriesPerChunk * shfsHentrySize ≤ V.chunksize :=
    Nat.div_mul_le_self V.chunksize shfsHentrySize
  rw [Nat.succ_mul] at hmul
  exact Nat.le_trans hmul hdiv

theorem htableRef_eq : V.htableRef = 2 := rfl

theorem htableLen_eq : V.args.conf.htableLen = V.htableLen := rfl

/-- The chunks of the table follow each other. -/
theorem htableChunk_eq (hi : i < V.htableLen) : V.conf.htableChunk i = 2 + i := by
  have hle := V.tables_le
  have hlt := V.volsize_lt
  rw [V.htableLen_eq] at hle
  show wrap64 (2 + i) = _
  apply wrap64_of_lt
  split at hle <;> omega

/-- A chunk of the table lies in the volume. -/
theorem htableChunk_lt (hi : i < V.htableLen) : V.conf.htableChunk i < V.tablesEnd := by
  rw [V.htableChunk_eq hi]
  unfold tablesEnd
  split <;> omega

theorem tablesEnd_le : V.tablesEnd ≤ V.volsize := V.tables_le

theorem fits_table (hi : i < V.htableLen) : V.g.Fits (V.conf.htableChunk i) 1 :=
  V.fits _ (Nat.lt_of_lt_of_le (V.htableChunk_lt hi) V.tablesEnd_le)

theorem htableChunk_inj {j : Nat} (hi : i < V.htableLen) (hj : j < V.htableLen)
    (h : V.conf.htableChunk i = V.conf.htableChunk j) : i = j := by
  rw [V.htableChunk_eq hi, V.htableChunk_eq hj] at h
  omega

/-- The stripes of a chunk make up its size. -/
theorem chunkLen_eq : V.g.chunkLen = V.chunksize := by
  unfold Striping.chunkLen Striping.perChunk chunksize
  rw [V.args.geom.chunksize_eq]
  simp only [Volume.g, VolGeom.striping]
  cases V.args.geom.stripemode with
  | combined => exact Nat.mul_comm _ _
  | independent => exact Nat.one_mul _

end Volume

/-! ## The invariant -/

/-- The slot of the entry number `i`. -/
def VolInfo.slot (v : VolInfo) (i : Nat) : HtableEl := v.bt.slot i

/-- The table of a mounted volume. -/
structure Table (V : Volume) (v : VolInfo) : Prop where
  nbBkts : v.bt.nbBkts = V.conf.htableNbBuckets
  elPerBkt : v.bt.elPerBkt = V.conf.htableNbEntriesPerBucket
  hlen : v.bt.hlen = V.hlen
  listed : ∃ l, v.bt.Listed l
  place : ∀ i < V.conf.htableNbEntries, v.bentry (v.slot i) =
    ⟨shfsHtableChunkNo i V.conf.htableNbEntriesPerChunk,
      shfsHtableEntryOffset i V.conf.htableNbEntriesPerChunk⟩
  digest : ∀ i < V.conf.htableNbEntries, SameHash V.hlen (v.bt.h (v.slot i)) (v.hentry (v.slot i))
  dflt : ∀ el, v.defBentry = some el → v.bt.InRange el

namespace Table

variable {V : Volume} {v : VolInfo} {i j : Nat} {el : HtableEl}

theorem nbBkts_pos (h : Table V v) : 0 < v.bt.nbBkts := by
  rw [h.nbBkts]
  exact V.nbBuckets_pos

/-- The entries are the slots. -/
theorem inRange_slot (h : Table V v) (hi : i < V.conf.htableNbEntries) : v.bt.InRange (v.slot i) := by
  apply slot_inRange
  rw [h.nbBkts, h.elPerBkt, ← V.nbEntries_eq]
  exact hi

theorem exists_slot (h : Table V v) (hel : v.bt.InRange el) :
    ∃ i < V.conf.htableNbEntries, v.slot i = el := by
  obtain ⟨i, hi, heq⟩ := slot_surjective hel
  rw [h.nbBkts, h.elPerBkt, ← V.nbEntries_eq] at hi
  exact ⟨i, hi, heq⟩

theorem slot_injective {v : VolInfo} (h : v.slot i = v.slot j) : i = j := Htable.slot_injective h

/-- The entry bytes behind a bentry are those at its place in the chunk cache. -/
theorem hentry_eq (h : Table V v) (hi : i < V.conf.htableNbEntries) :
    v.hentry (v.slot i) = tableEntry V.conf v.htableChunkCache i := by
  unfold VolInfo.hentry tableEntry
  rw [h.place i hi]

/-- A slot is free exactly if its entry has the zero digest. -/
theorem isFree_slot (h : Table V v) (hi : i < V.conf.htableNbEntries) :
    v.bt.isFree (v.slot i) = hashIsZero (v.hentry (v.slot i)) V.hlen := by
  unfold Htable.isFree
  rw [h.hlen]
  exact hashIsZero_congr (h.digest i hi)

/-- What a lookup has found. -/
theorem lookup_some (h : Table V v) {hash : Hash512} (hf : shfsBtableLookup v.bt hash = some el) :
    ∃ i < V.conf.htableNbEntries, v.slot i = el ∧ v.bt.isFree el = false ∧
      SameHash V.hlen (v.bt.h el) hash := by
  obtain ⟨hin, hsame, -, -⟩ := htableLookup_some h.nbBkts_pos hf
  obtain ⟨i, hi, heq⟩ := h.exists_slot hin
  rw [h.hlen] at hsame
  exact ⟨i, hi, heq, htableLookup_not_free h.nbBkts_pos hf, hsame⟩

/-- The table does not depend on the rest of a volume, but for the default entry. -/
theorem congr (h : Table V v) {w : VolInfo} (hbt : w.bt = v.bt)
    (hc : w.htableChunkCache = v.htableChunkCache) (hb : w.bentry = v.bentry)
    (hd : ∀ el, w.defBentry = some el → v.bt.InRange el) : Table V w := by
  have hslot : ∀ i, w.slot i = v.slot i := fun i => by
    unfold VolInfo.slot
    rw [hbt]
  have hent : ∀ el, w.hentry el = v.hentry el := fun el => by
    unfold VolInfo.hentry
    rw [hc, hb]
  constructor
  case nbBkts => rw [hbt, h.nbBkts]
  case elPerBkt => rw [hbt, h.elPerBkt]
  case hlen => rw [hbt, h.hlen]
  case listed => rw [hbt]; exact h.listed
  case place => exact fun i hi => by rw [hslot, hb, h.place i hi]
  case digest => exact fun i hi => by rw [hslot, hent, hbt]; exact h.digest i hi
  case dflt => exact fun el hel => by rw [hbt]; exact hd el hel

end Table

/-! ## A change of an entry -/

section AddHentry

variable {V : Volume} {v : VolInfo} {f : Hentry → Hentry} {i j : Nat} {el : HtableEl}

@[simp] theorem addHentry_bt : (addHentry v el f).bt = v.bt := rfl
@[simp] theorem addHentry_bentry : (addHentry v el f).bentry = v.bentry := rfl
@[simp] theorem addHentry_defBentry : (addHentry v el f).defBentry = v.defBentry := rfl
@[simp] theorem addHentry_al : (addHentry v el f).al = v.al := rfl
@[simp] theorem addHentry_slot : (addHentry v el f).slot i = v.slot i := rfl

theorem addHentry_state : (addHentry v el f).htableChunkCacheState =
    Function.update v.htableChunkCacheState (v.bentry el).hentryHtchunk true := rfl

/-- The changed entry. -/
theorem addHentry_self : SameHentry ((addHentry v el f).hentry el) (f (v.hentry el)) := by
  have hcache : (addHentry v el f).htableChunkCache (v.bentry el).hentryHtchunk =
      putHentry (v.htableChunkCache (v.bentry el).hentryHtchunk) (v.bentry el).hentryHtoffset
        (f (v.hentry el)) := Function.update_self _ _ _
  unfold VolInfo.hentry
  rw [addHentry_bentry, hcache]
  exact putHentry_same _ _ _

/-- A chunk that holds another entry. -/
theorem addHentry_chunk {c : Nat} (hc : c ≠ (v.bentry el).hentryHtchunk) :
    (addHentry v el f).htableChunkCache c = v.htableChunkCache c := Function.update_of_ne hc _ _

/-- Every other entry keeps its bytes. -/
theorem addHentry_other (h : Table V v) (hi : i < V.conf.htableNbEntries)
    (hj : j < V.conf.htableNbEntries) (hij : j ≠ i) :
    SameHentry ((addHentry v (v.slot i) f).hentry (v.slot j)) (v.hentry (v.slot j)) := by
  have hpi := h.place i hi
  have hpj := h.place j hj
  by_cases hc : (v.bentry (v.slot j)).hentryHtchunk = (v.bentry (v.slot i)).hentryHtchunk
  · -- two entries of one chunk have different places in it
    have hcache : (addHentry v (v.slot i) f).htableChunkCache (v.bentry (v.slot j)).hentryHtchunk =
        putHentry (v.htableChunkCache (v.bentry (v.slot j)).hentryHtchunk)
          (v.bentry (v.slot i)).hentryHtoffset (f (v.hentry (v.slot i))) := by
      rw [hc]
      exact Function.update_self _ _ _
    unfold VolInfo.hentry
    rw [addHentry_bentry, hcache]
    rw [hpi, hpj] at hc ⊢
    apply putHentry_frame
    intro hmod
    apply hij
    have hdiv : j / V.conf.htableNbEntriesPerChunk = i / V.conf.htableNbEntriesPerChunk := hc
    rw [← Nat.div_add_mod j V.conf.htableNbEntriesPerChunk, hdiv, ← hmod, Nat.div_add_mod]
  · unfold VolInfo.hentry
    rw [addHentry_bentry, addHentry_chunk hc]
    exact SameHentry.refl _

/-- A change of the digest in a slot along with the digest of its entry. -/
theorem Table.edit (h : Table V v) {bt : Htable} {x : Hash512} {l : List HtableEl}
    (hi : i < V.conf.htableNbEntries) (hg : SameGeom v.bt bt)
    (hh : bt.h = Function.update v.bt.h (v.slot i) x) (hl : bt.Listed l)
    (hx : SameHash V.hlen x (f (v.hentry (v.slot i)))) :
    Table V (addHentry { v with bt := bt } (v.slot i) f) := by
  have hslot : ∀ j, (addHentry { v with bt := bt } (v.slot i) f).slot j = v.slot j := hg.slot
  -- the entries do not depend on the bucket table
  have hself : SameHentry ((addHentry { v with bt := bt } (v.slot i) f).hentry (v.slot i))
      (f (v.hentry (v.slot i))) := addHentry_self
  have hother : ∀ j < V.conf.htableNbEntries, j ≠ i →
      SameHentry ((addHentry { v with bt := bt } (v.slot i) f).hentry (v.slot j))
        (v.hentry (v.slot j)) := fun j hj hij => addHentry_other h hi hj hij
  constructor
  case nbBkts => exact hg.1.trans h.nbBkts
  case elPerBkt => exact hg.2.1.trans h.elPerBkt
  case hlen => exact hg.2.2.trans h.hlen
  case listed => exact ⟨l, hl⟩
  case place =>
      intro j hj
      rw [hslot]
      exact h.place j hj
  case digest =>
      intro j hj
      rw [hslot]
      show SameHash V.hlen (bt.h (v.slot j)) _
      rw [hh]
      by_cases hij : j = i
      · rw [hij, Function.update_self]
        exact hx.trans (hself.sameHash V.hlen_le).symm
      · have hne : v.slot j ≠ v.slot i := fun heq => hij (Table.slot_injective heq)
        rw [Function.update_of_ne hne]
        exact (h.digest j hj).trans ((hother j hj hij).sameHash V.hlen_le).symm
  case dflt =>
      intro el hel
      exact (hg.inRange el).2 (h.dflt el hel)

end AddHentry

end Minipython.Tools.Admin
