/-
# Minipython.Shfs.System — mounting, remounting, unmounting and open files (shfs.c, shfs_fio.c)

The scheduler is cooperative: a thread runs until it blocks. So the calls of `shfs_fio_*` are one event
each, and the only thread that can be in the middle of a call is the holder of `shfs_mount_lock`; the
value of `Locker` is its program counter. Others run while it reads a chunk, waits in
`down(&bentry->updatelock)`, waits for a slot of a device queue, or opens or closes the member devices,
which may all call `schedule()`.

`mount_shfs` has two such phases. While `load_vol_cconf` looks for the members, `shfs_mounted` is 0. From
then on it is 1, because the functions that read chunks ask for it; the configuration and the table are
read with the flag up and no table there. A call that trusts the flag then works on what an earlier mount
has left in `shfs_vol`: a bucket table that was freed, and a `def_bentry` that points into it. The same
happens at the end of a mount that fails late, which closes the members with the flag still up.

`vol` is the bucket table while it is there. What a call finds in a table that is gone is up to the
environment.

`handles` are the descriptors handed out and not yet closed. The counters are those of the source, with 32
bits: they agree with the descriptors modulo `2 ^ 32`.
-/
import Minipython.Lib.Machine
import Minipython.Shfs.Remount

namespace Minipython.Shfs

open Minipython.Lib

/-- The outcome of the memory allocations of `mount_shfs` that follow the hash configuration. -/
inductive MountAlloc where
  | ok
  /-- `load_vol_htable` runs out of memory -/
  | noTable
  /-- no remount chunk buffer -/
  | noBuffer
  /-- `shfs_alloc_cache` fails -/
  | noCache
  deriving DecidableEq, Repr

/-- What `mount_shfs` meets. -/
inductive MountInput where
  /-- an empty list of devices -/
  | noDevice
  /-- `load_vol_cconf` fails -/
  | badLabel (e : Errno)
  /-- no memory for the token pool -/
  | noPool
  /-- the configuration chunk cannot be read -/
  | badConf (e : Errno)
  /-- a volume; `rd` is the outcome of reading its chunks -/
  | volume (g : VolGeom) (hdr : HdrConfig) (rd : Nat → Option Bytes) (alloc : MountAlloc)

/-- What the holder of `shfs_mount_lock` does next. -/
inductive Locker where
  /-- nobody holds the lock -/
  | idle
  /-- `mount_shfs` looks for the members and reads the label, with the flag down -/
  | mountLabel (i : MountInput)
  /-- `mount_shfs` reads the configuration and the table, with the flag up -/
  | mountLoad (i : MountInput)
  /-- a failing `mount_shfs` closes the members and will return `ret` -/
  | mountClose (ret : Option Errno)
  /-- `umount_shfs` closes the members behind the freed table -/
  | umountClose
  /-- `reload_vol_htable` reads table chunk `c` -/
  | read (c : Nat)
  /-- `reload_vol_htable` is at entry `e` of chunk `c`, whose new content is `nchk` -/
  | entry (c e : Nat) (nchk : Bytes)
  /-- the same, in the `down` of the entry's semaphore -/
  | down (c e : Nat) (nchk : Bytes) (el : HtableEl)
  /-- the same, behind that `down` -/
  | locked (c e : Nat) (nchk : Bytes) (el : HtableEl)
  /-- `umount_shfs` with force is at the element `cur` of the list -/
  | umountAt (cur : Option HtableEl)
  /-- the same, in the `down` of the semaphore of `el` -/
  | umountDown (el : HtableEl)
  /-- about to release the lock and return -/
  | out (ret : Option Errno)

/-- The global variables, with the descriptors in the hands of callers. -/
structure Sys where
  shfsMounted : Bool
  shfsNbOpen : UInt32
  vol : Option Vol
  locker : Locker
  handles : List HtableEl

/-- Behind `init_shfs`. -/
def Sys.init : Sys := ⟨false, 0, none, .idle, []⟩

/-! ## Mounting and unmounting -/

/-- `mount_shfs` behind `down(&shfs_mount_lock)`, up to `load_vol_cconf`. -/
def mountShfs (s : Sys) (i : MountInput) : Sys :=
  match i with
  | .noDevice => { s with locker := .out (some .einval) }
  | i =>
      if s.shfsMounted then { s with locker := .out (some .ealready) }
      else { s with locker := .mountLabel i }

/-- `mount_shfs` from the end of `load_vol_cconf` up to the reading of the configuration. -/
def mountLabel (s : Sys) : MountInput → Sys
  | .badLabel e => { s with locker := .out (some e) }
  -- the result of `load_vol_cconf` is still in `ret`
  | .noPool => { s with locker := .mountClose none }
  | i => { s with shfsMounted := true, locker := .mountLoad i }

/-- `mount_shfs` behind the reading of the table; nothing in it yields before the members are closed on an
error path. -/
def mountLoad (s : Sys) (i : MountInput) : Except Fault Sys :=
  let fail (ret : Option Errno) : Except Fault Sys := .ok { s with locker := .mountClose ret }
  match i with
  | .badConf e => fail (some e)
  | .volume g hdr rd alloc =>
      match loadVolHconf g hdr with
      | .error e => fail (some e)
      | .ok conf =>
          if alloc = .noTable then fail (some .enomem)
          else
            match loadVolHtable conf rd with
            | .error f => .error f
            | .ok (.error e) => fail (some e)
            | .ok (.ok v) =>
                match alloc with
                -- the result of `load_vol_htable` is still in `ret`
                | .noBuffer => fail none
                | .noCache => fail (some .enomem)
                | _ => .ok { s with shfsNbOpen := 0, vol := some v, locker := .out none }
  | _ => .ok s

/-- `umount_shfs` behind `down(&shfs_mount_lock)`; `busy` says that I/O tokens or chunk buffers are in
use. -/
def umountShfs (s : Sys) (force busy : Bool) : Sys :=
  match s.shfsMounted, s.vol with
  | true, some v =>
      if s.shfsNbOpen ≠ 0 ∨ busy then
        if force then { s with locker := .umountAt v.bt.ends.first }
        else { s with locker := .out (some .ebusy) }
      else { s with shfsMounted := false, vol := none, locker := .umountClose }
  | _, _ => { s with locker := .out none }

/-! ## Remounting -/

/-- `reload_vol_htable` at the head of its chunk loop. -/
def atChunk (conf : VolConf) (c : Nat) : Locker :=
  if c < conf.htableLen then .read c else .out none

/-- `reload_vol_htable` at the head of its entry loop. -/
def atEntry (conf : VolConf) (c e : Nat) (nchk : Bytes) : Locker :=
  if e < conf.htableNbEntriesPerChunk then .entry c e nchk else atChunk conf (c + 1)

/-- `remount_shfs` behind `down(&shfs_mount_lock)`. -/
def remountShfs (s : Sys) : Sys :=
  match s.shfsMounted, s.vol with
  | true, some v => { s with locker := atChunk v.conf 0 }
  | _, _ => { s with locker := .out (some .enodev) }

/-- The end of `shfs_read_chunk` in `reload_vol_htable`. -/
def readDone (s : Sys) (r : Option Bytes) : Sys :=
  match s.locker, s.vol, r with
  | .read c, some v, some nchk => { s with locker := atEntry v.conf c 0 nchk }
  | _, _, _ => { s with locker := .out (some .eio) }

/-- The holder of the mount lock goes on to its next scheduling point or its next access to a
semaphore. -/
def lockerStep (s : Sys) : Except Fault Sys :=
  match s.locker, s.vol with
  | .entry c e nchk, some v => do
      let (r, v') ← reloadEntry v c e nchk
      match r with
      | some el => return { s with vol := some v', locker := .down c e nchk el }
      | none => return { s with vol := some v', locker := atEntry v.conf c (e + 1) nchk }
  | .down c e nchk el, some v =>
      let v := v.setBentry el { v.bentry el with updatelock := (v.bentry el).updatelock - 1 }
      .ok { s with vol := some v, locker := .locked c e nchk el }
  | .locked c e nchk el, some v =>
      .ok { s with
        vol := some (reloadUpdate v c e nchk el), locker := atEntry v.conf c (e + 1) nchk }
  | .umountAt (some el), some v =>
      let v := v.setBentry el { v.bentry el with update := true }
      .ok { s with vol := some v, locker := .umountDown el }
  | .umountAt none, some _ =>
      .ok { s with shfsMounted := false, vol := none, locker := .umountClose }
  | .umountDown el, some v =>
      let v := v.setBentry el { v.bentry el with updatelock := (v.bentry el).updatelock - 1 }
      .ok { s with vol := some v, locker := .umountAt (v.bt.links.next el) }
  | .mountLabel i, _ => .ok (mountLabel s i)
  | .mountLoad i, _ => mountLoad s i
  | .mountClose ret, _ => .ok { s with shfsMounted := false, locker := .out ret }
  | .umountClose, _ => .ok { s with locker := .out none }
  | .out _, _ => .ok { s with locker := .idle }
  | _, _ => .ok s

/-! ## Open files -/

/-- The bookkeeping of a successful open in a table that is gone. -/
def openDangling (s : Sys) : Option HtableEl → Except Errno HtableEl × Sys
  | none => (.error .enoent, s)
  | some el => (.ok el, { s with shfsNbOpen := s.shfsNbOpen + 1, handles := el :: s.handles })

/-- `_shfs_fio_open_bentry` with the counter of open files. -/
def openBentry (s : Sys) (v : Vol) (el : HtableEl) : Except Errno HtableEl × Sys :=
  match shfsFioOpenBentry v el with
  | .error e => (.error e, s)
  | .ok v => (.ok el,
      { s with vol := some v, shfsNbOpen := s.shfsNbOpen + 1, handles := el :: s.handles })

/-- `shfs_fio_open`. The last argument is what the lookup finds if the table is gone. -/
def shfsFioOpen (s : Sys) (path : List UInt8) (gone : Option HtableEl) :
    Except Errno HtableEl × Sys :=
  if !s.shfsMounted then (.error .enodev, s)
  else
    match s.vol with
    | none => openDangling s gone
    | some v =>
        match shfsFioLookup v path with
        | none => (.error .enoent, s)
        | some el => openBentry s v el

/-- `shfs_fio_openh`, which does not look at `shfs_mounted`. -/
def shfsFioOpenh (s : Sys) (h : Hash512) (gone : Option HtableEl) : Except Errno HtableEl × Sys :=
  match s.vol with
  | none => openDangling s gone
  | some v =>
      match shfsLookupBentryByHash v h with
      | none => (.error .enoent, s)
      | some el => openBentry s v el

/-- `shfs_fio_openf`. -/
def shfsFioOpenf (s : Sys) (f : Option HtableEl) : Except Errno HtableEl × Sys :=
  match f with
  | none => (.error .einval, s)
  | some el =>
      if !s.shfsMounted then (.error .enodev, s)
      else (.ok el, { s with
        vol := s.vol.map (shfsFioClone · el), shfsNbOpen := s.shfsNbOpen + 1
        handles := el :: s.handles })

/-- `shfs_fio_close`. -/
def shfsFioClose (s : Sys) (el : HtableEl) : Sys :=
  { s with
    vol := s.vol.map (shfsFioRelease · el), shfsNbOpen := s.shfsNbOpen - 1
    handles := s.handles.erase el }

/-! ## The machine -/

/-- The events. -/
inductive SysEvent where
  | mount (i : MountInput)
  | remount
  | umount (force busy : Bool)
  /-- the chunk that `reload_vol_htable` waits for is read -/
  | readDone (r : Option Bytes)
  /-- the holder of the mount lock runs -/
  | locker
  | open (path : List UInt8) (gone : Option HtableEl)
  | openh (h : Hash512) (gone : Option HtableEl)
  | openf (f : Option HtableEl)
  | close (f : HtableEl)

/-- The holder of the mount lock, if there is one, has yielded or may have. -/
def Locker.yields : Locker → Bool
  | .idle | .mountLabel _ | .mountLoad _ | .read _ | .down .. | .umountDown _ | .mountClose _
  | .umountClose => true
  | _ => false

/-- The holder of the mount lock can run: it waits neither for a chunk nor for a semaphore. -/
def Sys.lockerReady (s : Sys) : Bool :=
  match s.locker, s.vol with
  | .idle, _ | .read _, _ => false
  | .down _ _ _ el, some v | .umountDown el, some v => 0 < (v.bentry el).updatelock
  | _, _ => true

/-- When an event can happen. Handles are closed and cloned by those who have them. -/
def sysEnabled (s : Sys) : SysEvent → Prop
  | .mount _ | .remount | .umount .. => s.locker = .idle
  | .readDone _ => ∃ c, s.locker = .read c
  | .locker => s.lockerReady = true
  | .open .. | .openh .. => s.locker.yields = true
  | .openf f => s.locker.yields = true ∧ ∀ el, f = some el → el ∈ s.handles
  | .close f => s.locker.yields = true ∧ f ∈ s.handles

instance (l : Locker) : Decidable (l = .idle) :=
  match l with
  | .idle => isTrue rfl
  | .mountLabel _ | .mountLoad _ | .mountClose _ | .umountClose | .read _ | .entry .. | .down ..
  | .locked .. | .umountAt _ | .umountDown _ | .out _ => isFalse nofun

instance (l : Locker) : Decidable (∃ c, l = .read c) :=
  match l with
  | .read c => isTrue ⟨c, rfl⟩
  | .idle | .mountLabel _ | .mountLoad _ | .mountClose _ | .umountClose | .entry .. | .down ..
  | .locked .. | .umountAt _ | .umountDown _ | .out _ => isFalse nofun

/-- A property of what an option holds. -/
instance decidableForallSome {α : Type} (o : Option α) (p : α → Prop) [DecidablePred p] :
    Decidable (∀ a, o = some a → p a) :=
  match o with
  | none => isTrue nofun
  | some a => decidable_of_iff (p a) ⟨fun h _ hb => Option.some.inj hb ▸ h, fun h => h a rfl⟩

/-- A property of the value of a call that succeeded. -/
instance decidableForallOk {α : Type} (o : Option (Except Errno α)) (p : α → Prop) [DecidablePred p] :
    Decidable (∀ a, o = some (.ok a) → p a) :=
  match o with
  | none => isTrue nofun
  | some (.error _) => isTrue nofun
  | some (.ok a) =>
      decidable_of_iff (p a) ⟨fun h _ hb => Except.ok.inj (Option.some.inj hb) ▸ h, fun h => h a rfl⟩

instance (s : Sys) (e : SysEvent) : Decidable (sysEnabled s e) :=
  match e with
  | .mount _ | .remount | .umount .. => inferInstanceAs (Decidable (s.locker = .idle))
  | .readDone _ => inferInstanceAs (Decidable (∃ c, s.locker = .read c))
  | .locker => inferInstanceAs (Decidable (s.lockerReady = true))
  | .open .. | .openh .. => inferInstanceAs (Decidable (s.locker.yields = true))
  | .openf f => inferInstanceAs (Decidable (s.locker.yields = true ∧ ∀ el, f = some el → el ∈ s.handles))
  | .close f => inferInstanceAs (Decidable (s.locker.yields = true ∧ f ∈ s.handles))

/-- What an event does. -/
def sysNext (s : Sys) : SysEvent → Except Fault Sys
  | .mount i => .ok (mountShfs s i)
  | .remount => .ok (remountShfs s)
  | .umount force busy => .ok (umountShfs s force busy)
  | .readDone r => .ok (readDone s r)
  | .locker => lockerStep s
  | .open path gone => .ok (shfsFioOpen s path gone).2
  | .openh h gone => .ok (shfsFioOpenh s h gone).2
  | .openf f => .ok (shfsFioOpenf s f).2
  | .close f => .ok (shfsFioClose s f)

/-- What the opening calls return. -/
def openResult (s : Sys) : SysEvent → Option (Except Errno HtableEl)
  | .open path gone => some (shfsFioOpen s path gone).1
  | .openh h gone => some (shfsFioOpenh s h gone).1
  | .openf f => some (shfsFioOpenf s f).1
  | _ => none

/-- The file system under its callers. -/
def sys : Machine Sys SysEvent Fault := ⟨sysEnabled, sysNext⟩

instance (s : Sys) (e : SysEvent) : Decidable (sys.Enabled s e) := inferInstanceAs (Decidable (sysEnabled s e))

end Minipython.Shfs
