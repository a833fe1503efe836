/-
# Minipython.Tools.Mounting — what mount_shfs builds (shfs_admin.c)

`load_vol_htable` reads a chunk of the table when it comes to its first entry and feeds the bucket table
entry by entry. A read that fails ends the process; one that returns fewer bytes than asked for does not,
and leaves the rest of the buffer as it was. So the table that is loaded is whatever the buffers hold
behind the reads: `env.Reads V d img` says that this is the table `img`. Some such table there always is
(`MountEnv.reads_some`), and with complete transfers it is the one on disk (`MountEnv.Complete.reads`).

`Loading V img s k` is the loop invariant: the first `k` slots hold the digests of the first `k` entries
of the table, their chunks are cached as they were read, and the default entry is the last of them that
is flagged so. From it follows what a mount builds: `mountShfs_spec` with what is on disk, and
`mountShfs_table` for every mount, cut short or not.

`load_vol_alist` registers the label, the table and its backup, and then the container of every slot in
use. It takes the container from the file attributes of an entry, also where the entry is a link.
-/
import Minipython.Shfs.RemountRefine
import Minipython.Tools.Table

namespace Minipython.Tools.Admin

open Minipython.Lib
open Minipython.Shfs
open Htable

/-! ## Loading the table -/

/-- The entry number `i` of the table on disk. -/
def Volume.diskEntry (V : Volume) (d : Members) (i : Nat) : Hentry :=
  Shfs.diskEntry V.conf (chunkAt V.g d) i

/-- The chunks of the table on disk. -/
def Volume.tableOn (V : Volume) (d : Members) (c : Nat) : Bytes := chunkAt V.g d (V.conf.htableChunk c)

/-- The reads of a mount that succeed give these chunks of the table. -/
def MountEnv.Reads (env : MountEnv) (V : Volume) (d : Members) (img : Nat → Bytes) : Prop :=
  ∀ c < V.htableLen, ∀ buf,
    syncReadChunk V.g d (V.conf.htableChunk c) 1 env.heap (env.io c) = some buf →
      ∀ k < V.chunksize, buf k = img c k

/-- Reads that are not cut short give what is on disk. -/
theorem MountEnv.Complete.reads {env : MountEnv} {V : Volume} {d : Members} (hio : env.Complete) :
    env.Reads V d (V.tableOn d) := by
  intro c hc buf hread k hk
  exact readChunk_spec (V.fits_table hc) (hio c) hread (by rw [V.chunkLen_eq]; exact hk)

/-- Whatever the reads leave in the buffers is some table. -/
theorem MountEnv.reads_some (env : MountEnv) (V : Volume) (d : Members) : ∃ img, env.Reads V d img := by
  refine ⟨fun c => (syncReadChunk V.g d (V.conf.htableChunk c) 1 env.heap (env.io c)).getD Bytes.zeros, ?_⟩
  intro c hc buf hread k hk
  simp only [hread, Option.getD_some]

/-- A chunk of the table is cached as it was read and not marked. -/
structure Cached (V : Volume) (img : Nat → Bytes) (v : VolInfo) (c : Nat) : Prop where
  state : v.htableChunkCacheState c = false
  bytes : ∀ k < V.chunksize, v.htableChunkCache c k = img c k

/-- The entries of a cached chunk are those of the table. -/
theorem Cached.entry {V : Volume} {img : Nat → Bytes} {v : VolInfo} {i : Nat}
    (h : Cached V img v (shfsHtableChunkNo i V.conf.htableNbEntriesPerChunk)) :
    SameHentry (tableEntry V.conf v.htableChunkCache i) (tableEntry V.conf img i) := by
  intro k hk
  have hend := V.entry_end i
  apply h.bytes
  unfold sizeofHentry at hk
  unfold shfsHentrySize at hend
  omega

/-- The state of `load_vol_htable` behind its first `k` entries. -/
structure Loading (V : Volume) (img : Nat → Bytes) (s : VolInfo × Option Nat) (k : Nat) : Prop where
  nbBkts : s.1.bt.nbBkts = V.conf.htableNbBuckets
  elPerBkt : s.1.bt.elPerBkt = V.conf.htableNbEntriesPerBucket
  hlen : s.1.bt.hlen = V.hlen
  listed : ∃ l, s.1.bt.Listed l
  place : ∀ i < k, s.1.bentry (s.1.slot i) =
    ⟨shfsHtableChunkNo i V.conf.htableNbEntriesPerChunk,
      shfsHtableEntryOffset i V.conf.htableNbEntriesPerChunk⟩
  digest : ∀ i < k, SameHash V.hlen (s.1.bt.h (s.1.slot i)) (tableEntry V.conf img i)
  cached : ∀ i < k, Cached V img s.1 (shfsHtableChunkNo i V.conf.htableNbEntriesPerChunk)
  chkBuf : ∀ c, s.2 = some c → Cached V img s.1 c
  dflt : s.1.defBentry = (Vol.lastDefault (tableEntry V.conf img) k).map s.1.slot

section Load

variable {V : Volume} {env : MountEnv} {d : Members} {img : Nat → Bytes} {s s' : VolInfo × Option Nat} {k : Nat}

theorem emptyVol_loading : Loading V img (emptyVol V env, none) 0 where
  nbBkts := rfl
  elPerBkt := rfl
  hlen := rfl
  listed := ⟨[], listed_alloc _ _ _⟩
  place := fun i hi => absurd hi (Nat.not_lt_zero i)
  digest := fun i hi => absurd hi (Nat.not_lt_zero i)
  cached := fun i hi => absurd hi (Nat.not_lt_zero i)
  chkBuf := fun c hc => by cases hc
  dflt := rfl

/-- The first half of a turn: the chunk is the one that was read last, or it is read now. -/
theorem readTableChunk_spec (hrd : env.Reads V d img) {c : Nat} (hc : c < V.htableLen)
    (hbuf : s.2 = some c → Cached V img s.1 c) {v : VolInfo}
    (h : readTableChunk V env d s c = .ok v) :
    v.bt = s.1.bt ∧ v.bentry = s.1.bentry ∧ v.defBentry = s.1.defBentry ∧ Cached V img v c ∧
      ∀ c', Cached V img s.1 c' → Cached V img v c' := by
  unfold readTableChunk at h
  split at h
  · rename_i hlast
    obtain rfl := Except.ok.inj h
    exact ⟨rfl, rfl, rfl, hbuf hlast, fun c' hc' => hc'⟩
  split at h
  · cases h
  split at h
  · cases h
  · rename_i buf hread
    obtain rfl := Except.ok.inj h
    have hnew := hrd c hc buf hread
    have hcached : Cached V img { s.1 with
        htableChunkCache := Function.update s.1.htableChunkCache c buf
        htableChunkCacheState := Function.update s.1.htableChunkCacheState c false } c := by
      refine ⟨Function.update_self _ _ _, fun k hk => ?_⟩
      show Function.update s.1.htableChunkCache c buf c k = _
      rw [Function.update_self, hnew k hk]
    refine ⟨rfl, rfl, rfl, hcached, fun c' hc' => ?_⟩
    by_cases heq : c' = c
    · rw [heq]
      exact hcached
    · refine ⟨?_, fun k hk => ?_⟩
      · exact (Function.update_of_ne heq _ _).trans hc'.state
      · show Function.update s.1.htableChunkCache c buf c' k = _
        rw [Function.update_of_ne heq, hc'.bytes k hk]

/-- One turn. -/
theorem loadEntry_spec (hrd : env.Reads V d img) (h : Loading V img s k) (hk : k < V.conf.htableNbEntries)
    (hs : loadEntry V env d s k = .ok s') : Loading V img s' (k + 1) := by
  unfold loadEntry at hs
  obtain ⟨v, hv, hs⟩ := ok_of_bind hs
  obtain ⟨hbt, hbe, hdef, hcached, hold⟩ := readTableChunk_spec hrd (V.chunkNo_lt hk) (h.chkBuf _) hv
  obtain ⟨l, hl⟩ := h.listed
  rw [← hbt] at hl
  have hin : k < v.bt.nbBkts * v.bt.elPerBkt := by
    rw [hbt, h.nbBkts, h.elPerBkt, ← V.nbEntries_eq]
    exact hk
  -- the bytes that are fed are those on disk
  have hent := hcached.entry
  obtain ⟨bt₀, hfeed, hg, hh, hl'⟩ := feed_spec hl (tableEntry V.conf v.htableChunkCache k) hin
    (by rw [hbt, h.nbBkts]; exact V.conf.nbBuckets_le)
    (by rw [hbt, h.elPerBkt]; exact V.conf.nbEntriesPerBucket_le)
  have hlift : (lift (shfsBtableFeed v.bt k (tableEntry V.conf v.htableChunkCache k)) :
      Except Stop _) = .ok (v.bt.slot k, bt₀) := by
    rw [hfeed]
    rfl
  obtain ⟨⟨el, bt⟩, hfed, hs⟩ := ok_of_bind hs
  obtain ⟨rfl, rfl⟩ := Prod.mk.inj (Except.ok.inj (hfed.symm.trans hlift))
  have hslot : ∀ i, bt.slot i = s.1.slot i := fun i => by
    rw [hg.slot, hbt]
    rfl
  have hsk : v.bt.slot k = s.1.slot k := by
    rw [hbt]
    rfl
  have hlen : v.bt.hlen = V.hlen := by rw [hbt, h.hlen]
  have hne : ∀ {i}, i < k → s.1.slot i ≠ s.1.slot k := fun hi heq =>
    absurd (Table.slot_injective heq) (by omega)
  set w : VolInfo := { v with
    bt := bt
    bentry := Function.update v.bentry (v.bt.slot k)
      ⟨shfsHtableChunkNo k V.conf.htableNbEntriesPerChunk,
        shfsHtableEntryOffset k V.conf.htableNbEntriesPerChunk⟩ } with hw
  have hend : s' = (if (tableEntry V.conf v.htableChunkCache k).isDefault
      then { w with defBentry := some (v.bt.slot k) } else w,
      some (shfsHtableChunkNo k V.conf.htableNbEntriesPerChunk)) := (Except.ok.inj hs).symm
  have hparts : s'.1.bt = bt ∧ s'.1.bentry = w.bentry ∧
      s'.1.htableChunkCache = v.htableChunkCache ∧
      s'.1.htableChunkCacheState = v.htableChunkCacheState := by
    rw [hend]
    show VolInfo.bt (if _ then _ else _) = _ ∧ VolInfo.bentry (if _ then _ else _) = _ ∧
      VolInfo.htableChunkCache (if _ then _ else _) = _ ∧
      VolInfo.htableChunkCacheState (if _ then _ else _) = _
    split
    · exact ⟨rfl, rfl, rfl, rfl⟩
    · exact ⟨rfl, rfl, rfl, rfl⟩
  obtain ⟨hbt', hbe', hcache, hstate⟩ := hparts
  have hslot' : ∀ i, s'.1.slot i = s.1.slot i := fun i => by
    unfold VolInfo.slot
    rw [hbt']
    exact hslot i
  have hcached' : ∀ c, Cached V img v c → Cached V img s'.1 c := fun c hc =>
    ⟨by rw [hstate]; exact hc.state, fun k hk => by rw [hcache]; exact hc.bytes k hk⟩
  constructor
  case nbBkts => rw [hbt', hg.1, hbt, h.nbBkts]
  case elPerBkt => rw [hbt', hg.2.1, hbt, h.elPerBkt]
  case hlen => rw [hbt', hg.2.2, hlen]
  case listed => rw [hbt']; exact ⟨_, hl'⟩
  case place =>
      intro i hi
      rw [hslot', hbe']
      show Function.update v.bentry (v.bt.slot k) _ (s.1.slot i) = _
      rw [hsk]
      by_cases hik : i = k
      · rw [hik, Function.update_self]
      · rw [Function.update_of_ne (hne (by omega)), hbe]
        exact h.place i (by omega)
  case digest =>
      intro i hi
      rw [hslot', hbt', hh, hsk]
      by_cases hik : i = k
      · rw [hik, Function.update_self, hlen]
        exact (hashCopy_same _ _ _).trans (hent.sameHash V.hlen_le)
      · rw [Function.update_of_ne (hne (by omega)), hbt]
        exact h.digest i (by omega)
  case cached =>
      intro i hi
      apply hcached'
      by_cases hik : i = k
      · rw [hik]
        exact hcached
      · exact hold _ (h.cached i (by omega))
  case chkBuf =>
      intro c hc
      rw [hend] at hc
      obtain rfl := Option.some.inj hc
      exact hcached' _ hcached
  case dflt =>
      rw [Vol.lastDefault_succ, ← hent.isDefault, show s'.1.slot = s.1.slot from funext hslot', hend]
      show VolInfo.defBentry (if _ then _ else _) = _
      split
      · show some (v.bt.slot k) = some (s.1.slot k)
        rw [hsk]
      · exact hdef.trans h.dflt

/-- The loop. -/
theorem loadEntries_spec (hrd : env.Reads V d img) {n : Nat} (hn : n ≤ V.conf.htableNbEntries)
    (hs : (List.range n).foldlM (loadEntry V env d) (emptyVol V env, none) = .ok s) :
    Loading V img s n := by
  induction n generalizing s with
  | zero =>
      obtain rfl := Except.ok.inj hs
      exact emptyVol_loading
  | succ n ih =>
      rw [List.range_succ, List.foldlM_append] at hs
      obtain ⟨t, ht, hs⟩ := ok_of_bind hs
      rw [List.foldlM_cons] at hs
      obtain ⟨u, hu, hs⟩ := ok_of_bind hs
      obtain rfl := Except.ok.inj hs
      exact loadEntry_spec hrd (ih (by omega) ht) (by omega) hu

end Load

/-! ## What a mount builds -/

/-- A volume that was mounted from such a table. -/
structure Mounted (V : Volume) (img : Nat → Bytes) (v : VolInfo) : Prop where
  table : Table V v
  cached : ∀ c < V.htableLen, Cached V img v c
  dflt : v.defBentry = (Vol.lastDefault (tableEntry V.conf img) V.conf.htableNbEntries).map v.slot

/-- Every chunk of the table holds an entry. -/
theorem Volume.chunk_entry (V : Volume) {c : Nat} (hc : c < V.htableLen) :
    ∃ i < V.conf.htableNbEntries, shfsHtableChunkNo i V.conf.htableNbEntriesPerChunk = c := by
  have hp := V.conf.entriesPerChunk_pos
  refine ⟨c * V.conf.htableNbEntriesPerChunk, ?_, Nat.mul_div_cancel c hp⟩
  change c < V.conf.htableLen at hc
  rw [V.conf.htableLen_eq, Nat.lt_div_iff_mul_lt hp] at hc
  omega

/-- The entries in memory are those that were read. -/
theorem Mounted.entry {V : Volume} {img : Nat → Bytes} {v : VolInfo} {i : Nat} (h : Mounted V img v)
    (hi : i < V.conf.htableNbEntries) : SameHentry (v.hentry (v.slot i)) (tableEntry V.conf img i) := by
  rw [h.table.hentry_eq hi]
  exact (h.cached _ (V.chunkNo_lt hi)).entry

theorem loadVolHtable_spec {V : Volume} {env : MountEnv} {d : Members} {img : Nat → Bytes} {v : VolInfo}
    (hrd : env.Reads V d img) (h : loadVolHtable V env d = .ok v) : Mounted V img v := by
  obtain ⟨s, hs, h⟩ := ok_of_bind h
  obtain rfl := Except.ok.inj h
  have hload := loadEntries_spec hrd (Nat.le_refl _) hs
  have hcached : ∀ c < V.htableLen, Cached V img s.1 c := fun c hc => by
    obtain ⟨i, hi, rfl⟩ := V.chunk_entry hc
    exact hload.cached i hi
  have hent : ∀ i < V.conf.htableNbEntries,
      s.1.hentry (s.1.slot i) = tableEntry V.conf s.1.htableChunkCache i := fun i hi => by
    unfold VolInfo.hentry tableEntry
    rw [hload.place i hi]
  refine ⟨⟨hload.nbBkts, hload.elPerBkt, hload.hlen, hload.listed, hload.place, fun i hi => ?_,
    fun el hel => ?_⟩, hcached, hload.dflt⟩
  · rw [hent i hi]
    exact (hload.digest i hi).trans ((hcached _ (V.chunkNo_lt hi)).entry.sameHash V.hlen_le).symm
  · rw [hload.dflt] at hel
    obtain ⟨i, hi, rfl⟩ := Option.map_eq_some_iff.1 hel
    have hlt : i < V.conf.htableNbEntries :=
      List.mem_range.1 (List.mem_filter.1 (List.mem_of_getLast? hi)).1
    apply slot_inRange
    rw [hload.nbBkts, hload.elPerBkt, ← V.nbEntries_eq]
    exact hlt

/-! ## Loading the allocator list -/

/-- The areas of the label, the table and its backup. -/
def Volume.tableAreas (V : Volume) : List Aentry :=
  ⟨0, 2⟩ :: ⟨2, 2 + V.htableLen⟩ ::
    if V.backup then [⟨2 + V.htableLen, 2 + 2 * V.htableLen⟩] else []

/-- The range that is registered for an entry. -/
def container (V : Volume) (e : Hentry) : Aentry := aentryOf e.chunk (containerLen V e)

theorem Volume.htableBakRef_eq (V : Volume) :
    V.htableBakRef = if V.backup then 2 + V.htableLen else 0 := by
  have hle := V.tables_le
  have hlt := V.volsize_lt
  rw [V.htableLen_eq] at hle
  unfold htableBakRef hdr
  cases hb : V.backup with
  | false => rfl
  | true =>
      show (UInt64.ofNat (2 + V.htableLen)).toNat = 2 + V.htableLen
      rw [hb, if_pos rfl] at hle
      rw [UInt64.toNat_ofNat']
      apply Nat.mod_eq_of_lt
      simp only [u64Size] at hlt
      omega

theorem registerOrDie_ok {al al' : Alist} {mem : Bool} {start len : Nat}
    (h : registerOrDie al mem start len = .ok al') :
    al' = (shfsAlistRegister al true start len).2 := by
  unfold registerOrDie at h
  cases mem with
  | false => cases h
  | true => exact (Except.ok.inj h).symm

/-- What `load_vol_alist` does. -/
theorem loadVolAlist_spec {V : Volume} {env : MountEnv} {v w : VolInfo}
    (h : loadVolAlist V env v = .ok w) : ∃ al : Alist, al.stop = V.volsize ∧
      al.allocator = sallocFirstfit ∧ al.entries = V.tableAreas ∧
      w = { v with al := registerContainers V v (fun i => env.regMem (3 + i)) (foreachHtableEl v.bt) al } := by
  unfold loadVolAlist at h
  obtain ⟨al₀, h₀, h⟩ := ok_of_bind h
  obtain ⟨al₁, h₁, h⟩ := ok_of_bind h
  obtain ⟨al₂, h₂, h⟩ := ok_of_bind h
  obtain ⟨al₃, h₃, h⟩ := ok_of_bind h
  have hle := V.tables_le
  have hlt := V.volsize_lt
  rw [V.htableLen_eq] at hle
  refine ⟨al₃, ?_⟩
  have hal₀ : al₀ = ⟨V.volsize, 0, sallocFirstfit, []⟩ := by
    unfold allocAlistOrDie shfsAllocAlist at h₀
    rw [if_neg fun hne => hne.1 rfl] at h₀
    cases hm : env.alistMem with
    | false =>
        rw [hm] at h₀
        cases h₀
    | true =>
        rw [hm] at h₀
        exact (Except.ok.inj h₀).symm
  have hal₁ := registerOrDie_ok h₁
  have hal₂ := registerOrDie_ok h₂
  have hwrap : wrap64 (2 + V.htableLen) = 2 + V.htableLen := by
    apply wrap64_of_lt
    split at hle <;> omega
  have hentries₂ : al₂.entries = [⟨0, 2⟩, ⟨2, 2 + V.htableLen⟩] := by
    rw [hal₂, hal₁, hal₀]
    show [aentryOf 0 2, aentryOf V.htableRef V.htableLen] = _
    unfold aentryOf
    rw [V.htableRef_eq, hwrap]
    rfl
  unfold registerBackup at h₃
  rw [V.htableBakRef_eq] at h₃
  unfold Volume.tableAreas
  cases hb : V.backup with
  | false =>
      rw [hb, if_neg Bool.false_ne_true] at h₃
      rw [if_neg fun hne => hne rfl] at h₃
      obtain rfl := Except.ok.inj h₃
      refine ⟨by rw [hal₂, hal₁, hal₀]; rfl, by rw [hal₂, hal₁, hal₀]; rfl, ?_, (Except.ok.inj h).symm⟩
      rw [hentries₂]
      rfl
  | true =>
      rw [hb, if_pos rfl] at h₃ hle
      rw [if_pos (by omega : 2 + V.htableLen ≠ 0)] at h₃
      have hal₃ := registerOrDie_ok h₃
      have hwrap' : wrap64 (2 + V.htableLen + V.htableLen) = 2 + 2 * V.htableLen := by
        rw [wrap64_of_lt (by omega)]
        omega
      refine ⟨by rw [hal₃, hal₂, hal₁, hal₀]; rfl, by rw [hal₃, hal₂, hal₁, hal₀]; rfl, ?_,
        (Except.ok.inj h).symm⟩
      rw [hal₃, register_entries, hentries₂]
      unfold aentryOf
      rw [hwrap', Extent.insertByStart_last]
      · rfl
      · intro a ha
        show a.start ≤ 2 + V.htableLen
        obtain rfl | ha := List.mem_cons.1 ha
        · exact Nat.zero_le _
        · rw [List.mem_singleton.1 ha]
          exact Nat.le_add_right _ _

/-- What `mount_shfs` builds from the table that it reads. -/
theorem mountShfs_from {V : Volume} {env : MountEnv} {d : Members} {img : Nat → Bytes} {w : VolInfo}
    (hrd : env.Reads V d img) (h : mountShfs V env d = .ok w) :
    Mounted V img w ∧ ∃ al : Alist, al.stop = V.volsize ∧ al.allocator = sallocFirstfit ∧
      al.entries = V.tableAreas ∧
      w.al = registerContainers V w (fun i => env.regMem (3 + i)) (foreachHtableEl w.bt) al := by
  unfold mountShfs at h
  split at h
  · obtain ⟨v, hv, halist⟩ := ok_of_bind h
    have hm := loadVolHtable_spec hrd hv
    obtain ⟨al, hstop, hff, hent, rfl⟩ := loadVolAlist_spec halist
    refine ⟨⟨hm.table.congr rfl rfl rfl hm.table.dflt, fun c hc => ?_, hm.dflt⟩, al, hstop, hff, hent, rfl⟩
    exact ⟨(hm.cached c hc).state, (hm.cached c hc).bytes⟩
  · cases h

/-- With complete transfers it builds what is on disk. -/
theorem mountShfs_spec {V : Volume} {env : MountEnv} {d : Members} {w : VolInfo} (hio : env.Complete)
    (h : mountShfs V env d = .ok w) :
    Mounted V (V.tableOn d) w ∧ ∃ al : Alist, al.stop = V.volsize ∧ al.allocator = sallocFirstfit ∧
      al.entries = V.tableAreas ∧
      w.al = registerContainers V w (fun i => env.regMem (3 + i)) (foreachHtableEl w.bt) al :=
  mountShfs_from hio.reads h

/-- However many bytes the reads return, the table in memory is one. -/
theorem mountShfs_table {V : Volume} {env : MountEnv} {d : Members} {w : VolInfo}
    (h : mountShfs V env d = .ok w) : Table V w := by
  obtain ⟨img, hrd⟩ := env.reads_some V d
  exact (mountShfs_from hrd h).1.table

/-! ## A mount that meets no error -/

/-- The system lets a mount through. -/
structure MountEnv.Ok (env : MountEnv) : Prop where
  setup : env.setup = true
  chunkMem : ∀ c, env.chunkMem c = true
  io : ∀ c r, (env.io c r).isSome = true
  complete : env.Complete
  alistMem : env.alistMem = true
  regMem : ∀ i, env.regMem i = true

section MountOk

variable {V : Volume} {env : MountEnv} {d : Members}

theorem readStripes_ok {io : Transfers} {rs : List IoRequest} (hio : ∀ r, (io r).isSome = true)
    (hrs : ∀ r ∈ rs, 0 ≤ r.start) (buf : Bytes) : ∃ b, readStripes d io rs buf = some b := by
  induction rs generalizing buf with
  | nil => exact ⟨buf, rfl⟩
  | cons r rs ih =>
      have hok : io.ok r = true := by
        unfold Transfers.ok
        rw [hio r, decide_eq_true (hrs r List.mem_cons_self)]
        rfl
      rw [readStripes, if_pos hok]
      exact ih (fun x hx => hrs x (List.mem_cons_of_mem r hx)) _

/-- A turn of the loop goes through. -/
theorem loadEntry_ok (henv : env.Ok) (haddr : ∀ c < V.htableLen, Addressed V.g (V.conf.htableChunk c))
    {s : VolInfo × Option Nat} {k : Nat} (h : Loading V (V.tableOn d) s k) (hk : k < V.conf.htableNbEntries) :
    ∃ s', loadEntry V env d s k = .ok s' := by
  set c := shfsHtableChunkNo k V.conf.htableNbEntriesPerChunk with hc
  have hread : ∃ v, readTableChunk V env d s c = .ok v := by
    unfold readTableChunk
    split
    · exact ⟨_, rfl⟩
    · obtain ⟨b, hb⟩ := @readStripes_ok d (env.io c) _ (henv.io c) (haddr c (V.chunkNo_lt hk)) env.heap
      have hsync : syncReadChunk V.g d (V.conf.htableChunk c) 1 env.heap (env.io c) = some b := hb
      rw [henv.chunkMem c, if_neg (by decide), hsync]
      exact ⟨_, rfl⟩
  obtain ⟨v, hv⟩ := hread
  obtain ⟨hbt, -, -, -, -⟩ := readTableChunk_spec henv.complete.reads (V.chunkNo_lt hk) (h.chkBuf c) hv
  obtain ⟨l, hl⟩ := h.listed
  rw [← hbt] at hl
  have hin : k < v.bt.nbBkts * v.bt.elPerBkt := by
    rw [hbt, h.nbBkts, h.elPerBkt, ← V.nbEntries_eq]
    exact hk
  obtain ⟨bt, hfeed, -, -, -⟩ := feed_spec hl (tableEntry V.conf v.htableChunkCache k) hin
    (by rw [hbt, h.nbBkts]; exact V.conf.nbBuckets_le)
    (by rw [hbt, h.elPerBkt]; exact V.conf.nbEntriesPerBucket_le)
  have hlift : (lift (shfsBtableFeed v.bt k (tableEntry V.conf v.htableChunkCache k)) :
      Except Stop _) = .ok (v.bt.slot k, bt) := by
    rw [hfeed]
    rfl
  unfold loadEntry
  simp only [← hc]
  rw [hv]
  change ∃ s', (lift (shfsBtableFeed v.bt k (tableEntry V.conf v.htableChunkCache k)) >>= _) = .ok s'
  rw [hlift]
  exact ⟨_, rfl⟩

theorem loadEntries_ok (henv : env.Ok) (haddr : ∀ c < V.htableLen, Addressed V.g (V.conf.htableChunk c))
    {n : Nat} (hn : n ≤ V.conf.htableNbEntries) :
    ∃ s, (List.range n).foldlM (loadEntry V env d) (emptyVol V env, none) = .ok s := by
  induction n with
  | zero => exact ⟨_, rfl⟩
  | succ n ih =>
      obtain ⟨s, hs⟩ := ih (by omega)
      obtain ⟨s', hs'⟩ := loadEntry_ok henv haddr (loadEntries_spec henv.complete.reads (by omega) hs) (by omega)
      rw [List.range_succ, List.foldlM_append, hs]
      change ∃ t, (loadEntry V env d s n >>= _) = .ok t
      rw [hs']
      exact ⟨_, rfl⟩

/-- A mount goes through if it meets no error and the table can be addressed. -/
theorem mountShfs_ok (henv : env.Ok) (haddr : ∀ c < V.htableLen, Addressed V.g (V.conf.htableChunk c)) :
    ∃ v, mountShfs V env d = .ok v := by
  obtain ⟨s, hs⟩ := @loadEntries_ok V env d henv haddr _ (Nat.le_refl _)
  have halloc : ∃ al, allocAlistOrDie V env = .ok al := by
    unfold allocAlistOrDie shfsAllocAlist
    rw [if_neg fun hne => hne.1 rfl, henv.alistMem]
    exact ⟨_, rfl⟩
  have hreg : ∀ al i start len, ∃ al', registerOrDie al (env.regMem i) start len = .ok al' := by
    intro al i start len
    rw [henv.regMem i]
    exact ⟨_, rfl⟩
  have hbak : ∀ al, ∃ al', registerBackup V env al = .ok al' := by
    intro al
    unfold registerBackup
    split
    · exact hreg al 2 _ _
    · exact ⟨_, rfl⟩
  obtain ⟨al₀, h₀⟩ := halloc
  obtain ⟨al₁, h₁⟩ := hreg al₀ 0 0 2
  obtain ⟨al₂, h₂⟩ := hreg al₁ 1 V.htableRef V.htableLen
  obtain ⟨al₃, h₃⟩ := hbak al₂
  have hload : loadVolHtable V env d = .ok s.1 := by
    unfold loadVolHtable
    rw [hs]
    rfl
  have halist : ∃ w, loadVolAlist V env s.1 = .ok w := by
    unfold loadVolAlist
    rw [h₀]
    change ∃ w, (registerOrDie al₀ (env.regMem 0) 0 2 >>= _) = .ok w
    rw [h₁]
    change ∃ w, (registerOrDie al₁ (env.regMem 1) V.htableRef V.htableLen >>= _) = .ok w
    rw [h₂]
    change ∃ w, (registerBackup V env al₂ >>= _) = .ok w
    rw [h₃]
    exact ⟨_, rfl⟩
  obtain ⟨w, hw⟩ := halist
  unfold mountShfs
  rw [if_pos henv.setup, hload]
  exact ⟨w, hw⟩

end MountOk

end Minipython.Tools.Admin
