/-
# Minipython.Shfs.Stats — the access statistics of a volume (shfs_stats.h, shfs_fio.c, shfs.c)

With `SHFS_STATS`, every bucket entry counts the opens of its file, and a second hash table, the miss table,
counts the requests for digests that the volume does not have. A remount that changes the digest of a slot
moves the counters between the two.

`Minipython.Shfs.System` is the file system without statistics. Its calls neither read nor wait for them, so
`statsSys` runs both side by side: the functions here are what `SHFS_STATS` adds to the function of the same
name. `SHFS_STATS_HTTP` is off.

An access is a hit when the open of a file succeeds, and a miss when a request by digest finds no entry;
requests by name that find none are counted together, without a digest. The counters have 32 bits and wrap.
The time of the last access is an argument, as the clock is not modelled.
-/
import Minipython.Shfs.HtableCalls
import Minipython.Shfs.SystemInv

namespace Minipython.Shfs

open Minipython.Lib

/-! ## The counters -/

/-- `struct shfs_el_stats`. -/
structure ElStats where
  laccess : UInt32
  /-- element hit -/
  h : UInt32
  /-- element miss -/
  m : UInt32
  deriving DecidableEq, Repr

namespace ElStats

/-- Behind `memset`. -/
def zero : ElStats := ⟨0, 0, 0⟩

def hit (x : ElStats) (now : UInt32) : ElStats := { x with laccess := now, h := x.h + 1 }

def miss (x : ElStats) (now : UInt32) : ElStats := { x with laccess := now, m := x.m + 1 }

/-- The hits and misses. -/
def counts (x : ElStats) : Nat × Nat := (x.h.toNat, x.m.toNat)

end ElStats

/-- `struct shfs_mstats` with the private areas of the elements of its table. -/
structure Mstats where
  /-- invalid requests -/
  i : UInt32
  /-- errors -/
  e : UInt32
  elHt : Htable
  elStats : HtableEl → ElStats

/-- `shfs_init_mstats`. -/
def shfsInitMstats (nbBkts entPerBkt hlen : Nat) : Mstats where
  i := 0
  e := 0
  elHt := allocHtable nbBkts entPerBkt hlen
  elStats := fun _ => ElStats.zero

/-- `shfs_stats_from_mstats`: the element of a digest, added if there is none yet. -/
def shfsStatsFromMstats (ms : Mstats) (h : Hash512) : Except Fault (Option HtableEl × Mstats) := do
  let (x, ht) ← htableLookupAdd ms.elHt h
  match x with
  | none => return (none, { ms with elHt := ht })
  | some (el, isNew) =>
      return (some el, { ms with
        elHt := ht
        elStats := if isNew then Function.update ms.elStats el ElStats.zero else ms.elStats })

/-- `shfs_stats_mstats_drop`. -/
def shfsStatsMstatsDrop (ms : Mstats) (h : Hash512) : Mstats :=
  match htableLookup ms.elHt h with
  | none => ms
  | some el => { ms with elHt := htableRm ms.elHt el }

namespace Mstats

/-- Overwrite the private area of an element. -/
def write (ms : Mstats) (el : HtableEl) (x : ElStats) : Mstats :=
  { ms with elStats := Function.update ms.elStats el x }

/-- The statistics that the table has of a digest. -/
def find (ms : Mstats) (h : Hash512) : Option ElStats := (htableLookup ms.elHt h).map ms.elStats

/-- The table has an element for the digest or a free one in its bucket. -/
def Room (ms : Mstats) (h : Hash512) : Prop :=
  hashIsZero h ms.elHt.hlen = true ∨ htableLookup ms.elHt h ≠ none ∨ HasRoom ms.elHt h

end Mstats

/-- The statistics of a volume: the field `hstats` of the bucket entries, and `mstats`. -/
structure Stats where
  hstats : HtableEl → ElStats
  mstats : Mstats

/-! ## Open files -/

namespace Stats

/-- `++shfs_vol.mstats.i`. -/
def invalid (st : Stats) : Stats := { st with mstats := { st.mstats with i := st.mstats.i + 1 } }

/-- `_shfs_lookup_bentry_by_hash`. -/
def shfsLookupBentryByHash (st : Stats) (v : Vol) (now : UInt32) (h : Hash512) :
    Except Fault Stats :=
  match Shfs.shfsLookupBentryByHash v h with
  | some _ => .ok st
  | none => do
      let (estats, ms) ← shfsStatsFromMstats st.mstats h
      match estats with
      | none => return { st with mstats := ms }
      | some p => return { st with mstats := ms.write p ((ms.elStats p).miss now) }

/-- `_shfs_lookup_bentry_by_name`. -/
def shfsLookupBentryByName (st : Stats) (v : Vol) (name : List UInt8) : Stats :=
  match Shfs.shfsLookupBentryByName v name with
  | some _ => st
  | none => st.invalid

/-- `_shfs_fio_open_bentry`. -/
def shfsFioOpenBentry (st : Stats) (v : Vol) (now : UInt32) (el : HtableEl) : Stats :=
  if (v.bentry el).update then { st with mstats := { st.mstats with e := st.mstats.e + 1 } }
  else { st with hstats := Function.update st.hstats el ((st.hstats el).hit now) }

/-- The end of an open, with what the lookup has found. -/
def openFound (st : Stats) (v : Vol) (now : UInt32) : Option HtableEl → Stats
  | none => st
  | some el => st.shfsFioOpenBentry v now el

/-- `shfs_fio_open` on a mounted volume. -/
def shfsFioOpen (st : Stats) (v : Vol) (now : UInt32) (path : List UInt8) : Except Fault Stats :=
  if isDefaultPath path then
    match v.defBentry with
    | none => .ok st.invalid
    | some el => .ok (st.shfsFioOpenBentry v now el)
  else if path.head? = some shfsHashIndicatorPrefix then
    match hashParse path.tail v.conf.hlen with
    | none => .ok st.invalid
    | some h => do
        let st ← st.shfsLookupBentryByHash v now h
        return st.openFound v now (Shfs.shfsLookupBentryByHash v h)
  else
    .ok ((st.shfsLookupBentryByName v path).openFound v now (Shfs.shfsLookupBentryByName v path))

/-- `shfs_fio_openh`. -/
def shfsFioOpenh (st : Stats) (v : Vol) (now : UInt32) (h : Hash512) : Except Fault Stats := do
  let st ← st.shfsLookupBentryByHash v now h
  return st.openFound v now (Shfs.shfsLookupBentryByHash v h)

/-! ## Remounting -/

/-- Move the statistics of an entry to the miss table, and reset them. -/
def moveToMstats (st : Stats) (el : HtableEl) (h : Hash512) : Except Fault Stats := do
  let (elStats, ms) ← shfsStatsFromMstats st.mstats h
  let ms := match elStats with
    | some p => ms.write p (st.hstats el)
    | none => ms
  return { hstats := Function.update st.hstats el ElStats.zero, mstats := ms }

/-- Load the statistics of an entry from the miss table, and delete them there. -/
def loadFromMstats (st : Stats) (el : HtableEl) (h : Hash512) : Except Fault Stats := do
  let (elStats, ms) ← shfsStatsFromMstats st.mstats h
  let loaded := match elStats with
    | some p => ms.elStats p
    | none => ElStats.zero
  return { hstats := Function.update st.hstats el loaded, mstats := shfsStatsMstatsDrop ms h }

/-- The entry loop of `reload_vol_htable` between `down` and the overwriting of the cached entry. The
comparison of the two entries is from before `down`; nobody else changes them. -/
def reloadUpdate (st : Stats) (v : Vol) (c e : Nat) (nchk : Bytes) (el : HtableEl) :
    Except Fault Stats :=
  let chentry := chunkEntry v.conf (v.htableChunkCache c) e
  let nhentry := chunkEntry v.conf nchk e
  if hashCompare chentry nhentry v.conf.hlen then
    if !hashIsZero chentry v.conf.hlen then st.moveToMstats el chentry
    else st.loadFromMstats el nhentry
  else .ok st

/-- What an event does to the statistics. -/
def next (st : Stats) (s : Sys) (now : UInt32) (e : SysEvent) : Except Fault Stats :=
  match s.vol, e with
  | some v, .open path _ => if s.shfsMounted then st.shfsFioOpen v now path else .ok st
  | some v, .openh h _ => st.shfsFioOpenh v now h
  | some v, .locker =>
      match s.locker with
      | .locked c e nchk el => st.reloadUpdate v c e nchk el
      | _ => .ok st
  | _, _ => .ok st

end Stats

/-! ## Accesses -/

/-- What an open adds to the statistics of a digest. -/
inductive Access where
  /-- the file of the entry is opened by this digest, or has it -/
  | hit (el : HtableEl) (h : Hash512)
  /-- there is no file with the digest -/
  | miss (h : Hash512)

/-- An open of an entry that is not being updated. -/
def accessEntry (v : Vol) (el : HtableEl) (h : Hash512) : Option Access :=
  if (v.bentry el).update then none else some (.hit el h)

/-- An open by digest. -/
def accessHash (v : Vol) (h : Hash512) : Option Access :=
  match shfsLookupBentryByHash v h with
  | some el => accessEntry v el h
  | none => some (.miss h)

/-- An open by path. -/
def accessPath (v : Vol) (path : List UInt8) : Option Access :=
  if !isDefaultPath path ∧ path.head? = some shfsHashIndicatorPrefix then
    (hashParse path.tail v.conf.hlen).bind (accessHash v)
  else (shfsFioLookup v path).bind fun el => accessEntry v el (v.hentry el)

/-- A change of the digest of an entry: its number, and what is in it before and behind. -/
structure Swap where
  entry : Nat
  old : Hentry
  new : Hentry

namespace Sys

/-- The access that an event is. -/
def access (s : Sys) (e : SysEvent) : Option Access :=
  match s.vol, e with
  | some v, .open path _ => if s.shfsMounted then accessPath v path else none
  | some v, .openh h _ => accessHash v h
  | _, _ => none

/-- The change of digest that an event completes. -/
def swap (s : Sys) (e : SysEvent) : Option Swap :=
  match s.vol, e, s.locker with
  | some v, .locker, .locked c e nchk _ =>
      let chentry := chunkEntry v.conf (v.htableChunkCache c) e
      let nhentry := chunkEntry v.conf nchk e
      if hashCompare chentry nhentry v.conf.hlen then
        some ⟨c * v.conf.htableNbEntriesPerChunk + e, chentry, nhentry⟩
      else none
  | _, _, _ => none

end Sys

/-! ## The machine -/

/-- The file system with its statistics. The log lists the accesses so far, the last one first; no function
reads it. -/
structure StatsSys where
  sys : Sys
  stats : Stats
  log : List Access

/-- Behind a successful `mount_shfs`. -/
def StatsSys.mounted (v : Vol) : StatsSys where
  sys := Sys.mounted v
  stats :=
    { hstats := fun _ => ElStats.zero
      mstats := shfsInitMstats v.conf.htableNbBuckets v.conf.htableNbEntriesPerBucket v.conf.hlen }
  log := []

/-- An event, with what `gettimestamp_s` returns in it. -/
abbrev StatsEvent := SysEvent × UInt32

def statsNext (s : StatsSys) (e : StatsEvent) : Except Fault StatsSys := do
  let stats ← s.stats.next s.sys e.2 e.1
  let sys ← sysNext s.sys e.1
  return ⟨sys, stats, (s.sys.access e.1).toList ++ s.log⟩

/-- Opens, closes and remounts on a mounted volume that keeps statistics. -/
def statsSys : Machine StatsSys StatsEvent Fault := ⟨fun s e => mountedSys.Enabled s.sys e.1, statsNext⟩

/-- An access finds room in the miss table. -/
def Mstats.RoomFor (ms : Mstats) : Access → Prop
  | .hit .. => True
  | .miss h => ms.Room h

/-- The miss table has room for the digest that the event adds to it. -/
def StatsRoom (s : StatsSys) (e : StatsEvent) : Prop :=
  (∀ a, s.sys.access e.1 = some a → s.stats.mstats.RoomFor a) ∧
    ∀ x, s.sys.swap e.1 = some x → s.stats.mstats.Room x.old

/-- The runs in which the miss table never is too full. -/
def roomyStats : Machine StatsSys StatsEvent Fault := statsSys.restrict StatsRoom

/-! ## Decisions -/

instance (ms : Mstats) (h : Hash512) : Decidable (ms.Room h) :=
  inferInstanceAs (Decidable (_ ∨ _ ∨ (_ ∧ ∃ i < _, _)))

instance (ms : Mstats) : DecidablePred ms.RoomFor := fun a =>
  match a with
  | .hit .. => isTrue trivial
  | .miss h => inferInstanceAs (Decidable (ms.Room h))

instance (s : StatsSys) (e : StatsEvent) : Decidable (StatsRoom s e) :=
  inferInstanceAs (Decidable ((∀ a, s.sys.access e.1 = some a → s.stats.mstats.RoomFor a) ∧
    ∀ x, s.sys.swap e.1 = some x → s.stats.mstats.Room x.old))

instance (s : StatsSys) (e : StatsEvent) : Decidable (roomyStats.Enabled s e) :=
  inferInstanceAs (Decidable ((sysEnabled s.sys e.1 ∧ e.1.staysMounted = true) ∧ StatsRoom s e))

end Minipython.Shfs
