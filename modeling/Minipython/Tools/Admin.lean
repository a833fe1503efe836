/-
# Minipython.Tools.Admin — sessions of shfs_admin (shfs_admin.c)

A session mounts a volume, works through the tokens of its command line and unmounts. The bucket table,
the chunk cache of the table and the allocator list live in memory and are built anew by every mount;
only `umount_shfs` writes table chunks, and only those marked as modified.

`Volume` is a volume that was formatted. `mkfs` names no backup of the table; `backup` stands for a
configuration chunk that was given one, right behind the table. Where the process ends on the spot
(`dief`, `die`) an operation has no result. What the system does (memory, files, transfers, the digest
library) is in the `Env` of each operation.
-/
import Minipython.Tools.Alloc
import Minipython.Tools.Disk
import Minipython.Tools.Entry
import Minipython.Tools.Mkfs
import Minipython.Lib.Machine

namespace Minipython.Tools.Admin

open Minipython.Lib
open Minipython.Shfs

/-! ## Volumes -/

/-- A formatted volume. -/
structure Volume where
  args : MkfsArgs
  backup : Bool
  volsize : Nat
  tables_le : 2 + (if backup then 2 else 1) * args.conf.htableLen ≤ volsize
  volsize_lt : volsize < u64Size
  fits : ∀ c < volsize, args.geom.striping.Fits c 1

namespace Volume

variable (V : Volume)

/-- The configuration chunk. -/
def hdr : HdrConfig :=
  { V.args.hdrConfig with
    htableBakRef := if V.backup then UInt64.ofNat (2 + V.args.conf.htableLen) else 0 }

/-- `load_vol_hconf`. -/
def conf : VolConf := ⟨V.args.geom, V.hdr, V.args.conf.htableLen_ne⟩

def g : Striping := V.args.geom.striping
def chunksize : Nat := V.args.geom.chunksize
def hlen : Nat := V.conf.hlen
def htableRef : Nat := V.conf.htableRef
def htableBakRef : Nat := V.hdr.htableBakRef.toNat
def htableLen : Nat := V.conf.htableLen

/-- The end of the table and of its backup. -/
def tablesEnd : Nat := 2 + (if V.backup then 2 else 1) * V.htableLen

end Volume

/-! ## The process -/

/-- How a session can end on the way. -/
inductive Stop where
  /-- `dief`, `die` or `exit` -/
  | died
  | fault (f : Fault)
  deriving DecidableEq, Repr

/-- An operation of the bucket table in a session. -/
def lift {α : Type} (x : Except Fault α) : Except Stop α := x.mapError Stop.fault

/-- `struct shfs_bentry` of the tools. -/
structure Bentry where
  hentryHtchunk : Nat
  hentryHtoffset : Nat
  deriving DecidableEq, Repr

/-- The part of `struct vol_info` that a mount builds. -/
structure VolInfo where
  bt : Htable
  htableChunkCache : Nat → Bytes
  htableChunkCacheState : Nat → Bool
  bentry : HtableEl → Bentry
  defBentry : Option HtableEl
  al : Alist

namespace VolInfo

/-- The entry bytes that a bentry refers to. -/
def hentry (v : VolInfo) (el : HtableEl) : Hentry :=
  Bytes.window (v.htableChunkCache (v.bentry el).hentryHtchunk) (v.bentry el).hentryHtoffset

/-- Change the entry that a bentry refers to. -/
def setHentry (v : VolInfo) (el : HtableEl) (f : Hentry → Hentry) : VolInfo :=
  let b := v.bentry el
  { v with
    htableChunkCache := Function.update v.htableChunkCache b.hentryHtchunk
      (putHentry (v.htableChunkCache b.hentryHtchunk) b.hentryHtoffset (f (v.hentry el))) }

/-- `htable_chunk_cache_state[bentry->hentry_htchunk] |= CCS_MODIFIED`. -/
def markModified (v : VolInfo) (el : HtableEl) : VolInfo :=
  { v with
    htableChunkCacheState :=
      Function.update v.htableChunkCacheState (v.bentry el).hentryHtchunk true }

end VolInfo

/-- A session between two tokens; `cancel` is set once an action has seen an abort signal. -/
structure Session where
  vol : VolInfo
  disk : Members
  cancel : Bool

/-! ## Mounting -/

/-- What `mount_shfs` meets. -/
structure MountEnv where
  /-- the devices and the label are accepted, and the allocations up to the chunk buffers succeed -/
  setup : Bool
  chunkMem : Nat → Bool
  /-- what fresh memory holds -/
  heap : Bytes
  state : Nat → Bool
  /-- the transfers for a chunk of the table -/
  io : Nat → Transfers
  alistMem : Bool
  /-- the allocations of allocator entries, in order -/
  regMem : Nat → Bool

section Mount

variable (V : Volume) (env : MountEnv) (d : Members)

/-- The chunk `c` of the table in the chunk cache: it is read unless `chk_buf` holds it. The second
component is the chunk that `chk_buf` holds, if any. -/
def readTableChunk (s : VolInfo × Option Nat) (c : Nat) : Except Stop VolInfo :=
  if s.2 = some c then .ok s.1
  else if !env.chunkMem c then .error .died
  else
    match syncReadChunk V.g d (V.conf.htableChunk c) 1 env.heap (env.io c) with
    | none => .error .died
    | some buf => .ok { s.1 with
        htableChunkCache := Function.update s.1.htableChunkCache c buf
        htableChunkCacheState := Function.update s.1.htableChunkCacheState c false }

/-- The body of the loop of `load_vol_htable`. -/
def loadEntry (s : VolInfo × Option Nat) (i : Nat) : Except Stop (VolInfo × Option Nat) := do
  let c := shfsHtableChunkNo i V.conf.htableNbEntriesPerChunk
  let off := shfsHtableEntryOffset i V.conf.htableNbEntriesPerChunk
  let v ← readTableChunk V env d s c
  let hentry : Hentry := Bytes.window (v.htableChunkCache c) off
  let (el, bt) ← lift (shfsBtableFeed v.bt i hentry)
  let v := { v with bt := bt, bentry := Function.update v.bentry el ⟨c, off⟩ }
  return (if hentry.isDefault then { v with defBentry := some el } else v, some c)

/-- What `load_vol_htable` starts from. -/
def emptyVol : VolInfo where
  bt := allocHtable V.conf.htableNbBuckets V.conf.htableNbEntriesPerBucket V.hlen
  htableChunkCache := fun _ => Bytes.zeros
  htableChunkCacheState := env.state
  bentry := fun _ => ⟨0, 0⟩
  defBentry := none
  al := ⟨0, 0, 0, []⟩

/-- `load_vol_htable`. -/
def loadVolHtable : Except Stop VolInfo := do
  let s ← (List.range V.conf.htableNbEntries).foldlM (loadEntry V env d) (emptyVol V env, none)
  return s.1

/-- The container of an entry as `DIV_ROUND_UP` counts its chunks. -/
def containerLen (e : Hentry) : Nat := divRoundUp (wrap64 (e.offset + e.len)) V.chunksize

/-- A registration whose failure ends the process. -/
def registerOrDie (al : Alist) (mem : Bool) (start len : Nat) : Except Stop Alist :=
  match shfsAlistRegister al mem start len with
  | (true, al) => .ok al
  | (false, _) => .error .died

/-- The loop of `load_vol_alist` over the element list. Its result is not tested. -/
def registerContainers (v : VolInfo) (mem : Nat → Bool) (els : List HtableEl) (al : Alist) : Alist :=
  (els.foldl (fun (s : Alist × Nat) el =>
    ((shfsAlistRegister s.1 (mem s.2) (v.hentry el).chunk (containerLen V (v.hentry el))).2,
      s.2 + 1)) (al, 0)).1

/-- The empty allocator list, or the end of the process. -/
def allocAlistOrDie : Except Stop Alist :=
  match shfsAllocAlist V.volsize V.hdr.allocator env.alistMem with
  | none => .error .died
  | some al => .ok al

/-- The registration of the backup, if there is one. -/
def registerBackup (al : Alist) : Except Stop Alist :=
  if V.htableBakRef ≠ 0 then registerOrDie al (env.regMem 2) V.htableBakRef V.htableLen else .ok al

/-- `load_vol_alist`. -/
def loadVolAlist (v : VolInfo) : Except Stop VolInfo := do
  let al ← allocAlistOrDie V env
  let al ← registerOrDie al (env.regMem 0) 0 2
  let al ← registerOrDie al (env.regMem 1) V.htableRef V.htableLen
  let al ← registerBackup V env al
  return { v with
    al := registerContainers V v (fun i => env.regMem (3 + i)) (foreachHtableEl v.bt) al }

/-- `mount_shfs`. -/
def mountShfs : Except Stop VolInfo :=
  if env.setup then loadVolHtable V env d >>= loadVolAlist V env else .error .died

end Mount

/-! ## Unmounting -/

/-- The transfers of `umount_shfs` for a chunk of the table, and for its backup. -/
structure UmountEnv where
  io : Nat → Transfers
  bakIo : Nat → Transfers

/-- The body of the loop of `umount_shfs`; `false` is the end of the process. -/
def umountChunk (V : Volume) (env : UmountEnv) (v : VolInfo) (d : Members) (i : Nat) : Bool × Members :=
  if v.htableChunkCacheState i then
    match syncWriteChunk V.g d (V.conf.htableChunk i) 1 (v.htableChunkCache i) (env.io i) with
    | (false, d) => (false, d)
    | (true, d) =>
        if V.htableBakRef ≠ 0 then
          syncWriteChunk V.g d (wrap64 (V.htableBakRef + i)) 1 (v.htableChunkCache i) (env.bakIo i)
        else (true, d)
  else (true, d)

/-- The loop of `umount_shfs`, over the chunks left. -/
def umountFrom (V : Volume) (env : UmountEnv) (v : VolInfo) : List Nat → Members → Bool × Members
  | [], d => (true, d)
  | i :: is, d =>
      match umountChunk V env v d i with
      | (false, d) => (false, d)
      | (true, d) => umountFrom V env v is d

/-- `umount_shfs`. -/
def umountShfs (V : Volume) (env : UmountEnv) (v : VolInfo) (d : Members) : Bool × Members :=
  umountFrom V env v (List.range V.htableLen) d

/-! ## Adding a file -/

/-- What `actn_addfile` meets: the file and the outcomes of the calls. A read is given by the number of
bytes that it returns. -/
structure AddEnv where
  opened : Bool
  stat : Bool
  isReg : Bool
  stSize : Nat
  stSize_lt : stSize < 2 ^ 63
  data : Bytes
  regMem : Bool
  /-- the content of the I/O buffer, if it is allocated -/
  tmpChk : Option Bytes
  mhashInit : Bool
  hashSeek : Bool
  hashRead : Nat → Option Nat
  hashCancel : Nat → Bool
  timestamp : Nat
  copySeek : Bool
  copyRead : Nat → Option Nat
  io : Nat → Transfers
  copyCancel : Nat → Bool

/-- `read(fd, tmp_chk, rlen)` at the offset `pos`, when it returns `n`. -/
def AddEnv.read (env : AddEnv) (pos rlen n : Nat) (buf : Bytes) : Bytes × Nat :=
  let got := min n (min rlen (env.stSize - pos))
  (Bytes.blit buf 0 (Bytes.window env.data pos) got, pos + got)

/-- The loop of `actn_addfile` around `mhash`, with `n` turns left. -/
def hashFile (chunksize csize : Nat) (env : AddEnv) :
    Nat → Nat → Nat → Bytes → List UInt8 → Except Int (List UInt8 × Bytes)
  | 0, _, _, buf, acc => .ok (acc, buf)
  | n + 1, c, pos, buf, acc =>
      let rlen := if c = csize - 1 then env.stSize % chunksize else chunksize
      match env.hashRead c with
      | none => .error (-1)
      | some k =>
          let (buf, pos) := env.read pos rlen k buf
          if env.hashCancel c then .error (-2)
          else hashFile chunksize csize env n (c + 1) pos buf (acc ++ (List.range rlen).map buf)

/-- The digest of a new object and the content of the I/O buffer, or the negative result. -/
def fileDigest (V : Volume) (lib : MhashLib) (j : Token) (env : AddEnv) (csize : Nat) (tmpChk : Bytes) :
    Except Stop (Except Int (Hash512 × Bytes)) :=
  if V.hdr.hfunc ≠ Shfunc.code .manual then
    match shfsMhashType V.hdr.hfunc V.hdr.hlen with
    | none => .error .died
    | some type =>
        if !env.mhashInit then .ok (.error (-1))
        else if !env.hashSeek then .ok (.error (-1))
        else .ok ((hashFile V.chunksize csize env csize 0 0 tmpChk []).map fun r => (lib type r.1, r.2))
  else
    match j.optstr2 with
    | none => .ok (.error (-1))
    | some digest =>
        match hashParse digest Bytes.zeros V.hlen with
        | none => .ok (.error (-1))
        | some h => .ok (.ok (h, tmpChk))

/-- The loop of `actn_addfile` that copies the contents, with `n` turns left. -/
def copyFile (V : Volume) (env : AddEnv) (cchk : Nat) :
    Nat → Nat → Nat → Nat → Bytes → Members → Int × Members
  | 0, _, _, _, _, d => (0, d)
  | n + 1, c, left, pos, buf, d =>
      if left = 0 then (0, d)
      else
        let rlen := if V.chunksize < left then V.chunksize else left
        let buf := if V.chunksize < left then buf else Bytes.blit buf 0 Bytes.zeros V.chunksize
        match env.copyRead c with
        | none => (-1, d)
        | some k =>
            let (buf, pos) := env.read pos rlen k buf
            match syncWriteChunk V.g d (wrap64 (cchk + c)) 1 buf (env.io c) with
            | (false, d) => (-1, d)
            | (true, d) =>
                if env.copyCancel c then (-2, d) else copyFile V env cchk n (c + 1) (left - rlen) pos buf d

/-- The chunks that a file needs. -/
def AddEnv.csize (V : Volume) (env : AddEnv) : Nat := divRoundUp env.stSize V.chunksize

/-- Change an entry and mark its chunk. -/
def addHentry (v : VolInfo) (el : HtableEl) (f : Hentry → Hentry) : VolInfo :=
  (v.setHentry el f).markModified el

/-- `actn_addfile` from the insertion of the new entry on. -/
def insertFile (V : Volume) (j : Token) (env : AddEnv) (cchk csize : Nat) (fhash : Hash512)
    (tmpChk : Bytes) (el : HtableEl) (bt : Htable) (s : Session) : Int × Session :=
  let v := addHentry { s.vol with bt := bt } el fun e =>
    fileHentry e V.hlen fhash cchk env.stSize env.timestamp j
  if env.copySeek then
    let r := copyFile V env cchk csize 0 env.stSize 0 tmpChk s.disk
    (r.1, { vol := v, disk := r.2, cancel := s.cancel || r.1 == -2 })
  else (-1, { s with vol := v })

/-- `actn_addfile` behind the reservation of the container. -/
def addReserved (V : Volume) (lib : MhashLib) (j : Token) (env : AddEnv) (cchk csize : Nat)
    (s : Session) : Except Stop (Int × Session) :=
  match env.tmpChk with
  | none => .ok (-1, s)
  | some tmpChk => do
      match ← fileDigest V lib j env csize tmpChk with
      | .error ret => .ok (ret, { s with cancel := s.cancel || ret == -2 })
      | .ok (fhash, tmpChk) =>
          if (shfsBtableLookup s.vol.bt fhash).isSome then .ok (-1, s)
          else do
            match ← lift (shfsBtableAddentry s.vol.bt fhash) with
            | (none, _) => .ok (-1, s)
            | (some el, bt) => .ok (insertFile V j env cchk csize fhash tmpChk el bt s)

/-- Give the container back, if it is registered. -/
def releaseContainer (s : Session) (cchk csize : Nat) : Session :=
  match shfsAlistUnregister s.vol.al cchk csize with
  | some al => { s with vol := { s.vol with al := al } }
  | none => s

/-- The container that `actn_addfile` takes. -/
def findContainer (V : Volume) (al : Alist) (csize : Nat) : Option Nat :=
  let cchk := shfsAlistFindFree al csize
  if cchk = 0 ∨ V.volsize ≤ cchk then none else some cchk

/-- The list with the container of a new file. -/
def reserve (V : Volume) (env : AddEnv) (cchk : Nat) (s : Session) : Session :=
  { s with vol := { s.vol with al := (shfsAlistRegister s.vol.al env.regMem cchk (env.csize V)).2 } }

/-- `actn_addfile`. -/
def actnAddfile (V : Volume) (lib : MhashLib) (j : Token) (env : AddEnv) (s : Session) :
    Except Stop (Int × Session) :=
  if !env.opened then .ok (-1, s)
  else if !env.stat then .ok (-1, s)
  else if !env.isReg then .ok (-1, s)
  else
    let csize := env.csize V
    match findContainer V s.vol.al csize with
    | none => .ok (-1, s)
    | some cchk => do
        let r ← addReserved V lib j env cchk csize (reserve V env cchk s)
        return if r.1 < 0 then (r.1, releaseContainer r.2 cchk csize) else r

/-! ## The other actions -/

/-- What `actn_addlink` meets. -/
structure LinkEnv where
  /-- the result of `http_parser_parse_url` -/
  url : Option HttpParserUrl
  /-- what `rhost` holds before -/
  stack : Bytes
  mhashInit : Bool
  timestamp : Nat

/-- The digest of a new link, or the negative result. -/
def linkDigest (V : Volume) (lib : MhashLib) (j : Token) (env : LinkEnv) :
    Except Stop (Except Int Hash512) :=
  if V.hdr.hfunc ≠ Shfunc.code .manual then
    match shfsMhashType V.hdr.hfunc V.hdr.hlen with
    | none => .error .died
    | some type => if !env.mhashInit then .ok (.error (-1)) else .ok (.ok (lib type j.path))
  else
    match j.optstr2 with
    | none => .ok (.error (-1))
    | some digest =>
        match hashParse digest Bytes.zeros V.hlen with
        | none => .ok (.error (-1))
        | some h => .ok (.ok h)

/-- `actn_addlink` behind the checks of the URL. -/
def insertLink (V : Volume) (j : Token) (env : LinkEnv) (u : HttpParserUrl) (rhost : Bytes)
    (fhash : Hash512) (s : Session) : Except Stop (Int × Session) :=
  if (shfsBtableLookup s.vol.bt fhash).isSome then .ok (-1, s)
  else do
    match ← lift (shfsBtableAddentry s.vol.bt fhash) with
    | (none, _) => .ok (-1, s)
    | (some el, bt) =>
        let v := addHentry { s.vol with bt := bt } el fun e =>
          linkHentry e V.hlen fhash rhost u env.timestamp j
        .ok (0, { s with vol := v })

/-- `actn_addlink`; `-22` is `-EINVAL` and `-28` is `-ENOSPC`. -/
def actnAddlink (V : Volume) (lib : MhashLib) (j : Token) (env : LinkEnv) (s : Session) :
    Except Stop (Int × Session) :=
  match env.url with
  | none => .ok (-22, s)
  | some u =>
      if !urlOk j.path u then .ok (-22, s)
      else
        match hntoshfshost (j.path.drop u.host.off) u.host.len env.stack with
        | none => .ok (-28, s)
        | some rhost => do
            match ← linkDigest V lib j env with
            | .error ret => .ok (ret, s)
            | .ok fhash => insertLink V j env u rhost fhash s

/-- `shfs_btable_rmentry` and the clearing of the digest in the entry. -/
def rmEntry (V : Volume) (h : Hash512) (el : HtableEl) (v : VolInfo) : VolInfo :=
  addHentry { v with bt := shfsBtableRmentry v.bt h } el fun e => hashClear e V.hlen

/-- `actn_rmfile`. -/
def actnRmfile (V : Volume) (j : Token) (s : Session) : Int × Session :=
  match hashParse j.path Bytes.zeros V.hlen with
  | none => (-1, s)
  | some h =>
      match shfsBtableLookup s.vol.bt h with
      | none => (-1, s)
      | some el =>
          let e := s.vol.hentry el
          if e.isLink then (0, { s with vol := rmEntry V h el s.vol })
          else
            match shfsAlistUnregister s.vol.al e.chunk
                (divRoundUp (wrap64 (e.len + e.offset)) V.chunksize) with
            | none => (-1, s)
            | some al => (0, { s with vol := rmEntry V h el { s.vol with al := al } })

/-- Change the flags of an entry. -/
def mapFlags (f : UInt8 → UInt8) (e : Hentry) : Hentry := Bytes.putLe e 180 1 (f e.flags).toNat

/-- `bentry_setflags`. -/
def bentrySetflags (v : VolInfo) (el : HtableEl) (flags : UInt8) : VolInfo :=
  addHentry v el (mapFlags fun f => f ||| flags)

/-- `bentry_clearflags`. -/
def bentryClearflags (v : VolInfo) (el : HtableEl) (flags : UInt8) : VolInfo :=
  addHentry v el (mapFlags fun f => f &&& ~~~flags)

/-- What `actn_cleardefault` does to the volume. -/
def clearDefault (v : VolInfo) : VolInfo :=
  match v.defBentry with
  | none => v
  | some el => { bentryClearflags v el shfsEflagDefault with defBentry := none }

/-- `actn_cleardefault`. -/
def actnCleardefault (s : Session) : Int × Session := (0, { s with vol := clearDefault s.vol })

/-- `actn_setdefault`. -/
def actnSetdefault (V : Volume) (j : Token) (s : Session) : Int × Session :=
  match hashParse j.path Bytes.zeros V.hlen with
  | none => (-1, s)
  | some h =>
      match shfsBtableLookup s.vol.bt h with
      | none => (-1, s)
      | some el =>
          let v := bentrySetflags (clearDefault s.vol) el shfsEflagDefault
          (0, { s with vol := { v with defBentry := some el } })

/-! ## Runs -/

/-- A token with what its action meets. Tokens that only print are left out. -/
inductive Action where
  | addObj (j : Token) (env : AddEnv)
  | addLnk (j : Token) (env : LinkEnv)
  | rmObj (j : Token)
  | setDefault (j : Token)
  | clearDefault

/-- The action of a token. -/
def Action.run (V : Volume) (lib : MhashLib) (s : Session) : Action → Except Stop (Int × Session)
  | .addObj j env => actnAddfile V lib j env s
  | .addLnk j env => actnAddlink V lib j env s
  | .rmObj j => .ok (actnRmfile V j s)
  | .setDefault j => .ok (actnSetdefault V j s)
  | .clearDefault => .ok (actnCleardefault s)

/-- The members, and the volume while a session has it mounted. -/
structure Sys where
  disk : Members
  session : Option (VolInfo × Bool)

/-- What happens to a volume. -/
inductive Event where
  | mount (env : MountEnv)
  | token (a : Action)
  | umount (env : UmountEnv)

/-- The state behind an operation of a session. A process that has ended leaves the members. -/
def Sys.after (d : Members) : Except Stop (Int × Session) → Except Fault Sys
  | .ok (_, s) => .ok ⟨s.disk, some (s.vol, s.cancel)⟩
  | .error .died => .ok ⟨d, none⟩
  | .error (.fault f) => .error f

/-- One event. -/
def Sys.next (V : Volume) (lib : MhashLib) (s : Sys) : Event → Except Fault Sys
  | .mount env =>
      match mountShfs V env s.disk with
      | .ok v => .ok ⟨s.disk, some (v, false)⟩
      | .error .died => .ok ⟨s.disk, none⟩
      | .error (.fault f) => .error f
  | .token a =>
      match s.session with
      | some (v, cancel) => Sys.after s.disk (a.run V lib ⟨v, s.disk, cancel⟩)
      | none => .ok s
  | .umount env =>
      match s.session with
      | some (v, _) => .ok ⟨(umountShfs V env v s.disk).2, none⟩
      | none => .ok s

/-- One session at a time; after an abort signal it takes no further token. -/
def Sys.Enabled (s : Sys) : Event → Prop
  | .mount _ => s.session = none
  | .token _ => ∃ v, s.session = some (v, false)
  | .umount _ => s.session ≠ none

instance (s : Sys) (e : Event) : Decidable (s.Enabled e) :=
  match e, s with
  | .mount _, ⟨_, none⟩ => .isTrue rfl
  | .mount _, ⟨_, some _⟩ => .isFalse fun h => by cases h
  | .token _, ⟨_, none⟩ => .isFalse fun ⟨_, h⟩ => by cases h
  | .token _, ⟨_, some (v, false)⟩ => .isTrue ⟨v, rfl⟩
  | .token _, ⟨_, some (_, true)⟩ => .isFalse fun ⟨_, h⟩ => by cases h
  | .umount _, ⟨_, none⟩ => .isFalse fun h => h rfl
  | .umount _, ⟨_, some _⟩ => .isTrue fun h => by cases h

/-- The sessions on a volume. Transfers may fail, and they may be cut short. -/
def anySessions (V : Volume) (lib : MhashLib) : Machine Sys Event Fault where
  Enabled := Sys.Enabled
  next := Sys.next V lib

instance (V : Volume) (lib : MhashLib) (s : Sys) (e : Event) : Decidable ((anySessions V lib).Enabled s e) :=
  inferInstanceAs (Decidable (s.Enabled e))

/-- No transfer of a mount is cut short. -/
def MountEnv.Complete (env : MountEnv) : Prop := ∀ c, (env.io c).Complete

/-- No transfer of an unmount is cut short. -/
def UmountEnv.Complete (env : UmountEnv) : Prop := ∀ c, (env.io c).Complete ∧ (env.bakIo c).Complete

/-- No write of a copy is cut short. -/
def AddEnv.Complete (env : AddEnv) : Prop := ∀ c, (env.io c).Complete

/-- No read of the table at a mount and no write of it at an unmount is cut short. -/
def Event.TableComplete : Event → Prop
  | .mount env => env.Complete
  | .token _ => True
  | .umount env => env.Complete

/-- No transfer of the members is cut short. -/
def Event.Complete : Event → Prop
  | .token (.addObj _ env) => env.Complete
  | e => e.TableComplete

theorem Event.Complete.table {e : Event} (h : e.Complete) : e.TableComplete := by
  cases e with
  | mount env => exact h
  | token a => trivial
  | umount env => exact h

/-- The sessions in which every transfer of the members is as long as asked for, or fails. The tools count on
that: they test for errors only. -/
def sessions (V : Volume) (lib : MhashLib) : Machine Sys Event Fault :=
  (anySessions V lib).restrict fun _ e => e.Complete

@[simp]
theorem sessions_next (V : Volume) (lib : MhashLib) (s : Sys) (e : Event) :
    (sessions V lib).next s e = s.next V lib e := rfl

/-- A step with complete transfers. -/
theorem sessions_step {V : Volume} {lib : MhashLib} {s t : Sys} {e : Event} :
    (sessions V lib).Step s e t ↔ (anySessions V lib).Step s e t ∧ e.Complete := Machine.restrict_step

/-- A list of events without a cut is executed as a run of sessions that meets a condition. -/
theorem sessions_exec {V : Volume} {lib : MhashLib} {good : Sys → Event → Prop}
    [∀ s e, Decidable (good s e)] {s : Sys} {es : List Event} {p : Sys → Bool}
    (h : (((anySessions V lib).restrict good).exec s es).any p = true) (hes : ∀ e ∈ es, e.Complete) :
    ∃ t, ((sessions V lib).restrict good).Run s es t ∧ p t = true := by
  obtain ⟨t, hrun, hp⟩ := Machine.Run.of_exec_any h
  refine ⟨t, ?_, hp⟩
  have hwhole : (((anySessions V lib).restrict good).restrict fun _ e => e.Complete).Run s es t :=
    hrun.restrict fun e he _ => hes e he
  refine hwhole.mono ?_
  intro s e t hs
  obtain ⟨hs, hio⟩ := Machine.restrict_step.1 hs
  obtain ⟨hs, hgood⟩ := Machine.restrict_step.1 hs
  exact Machine.restrict_step.2 ⟨sessions_step.2 ⟨hs, hio⟩, hgood⟩

/-- A session goes on, and its volume passes the test. -/
def Sys.inSession (s : Sys) (p : VolInfo → Bool) : Bool := s.session.any fun x => !x.2 && p x.1

theorem Sys.inSession_spec {s : Sys} {p : VolInfo → Bool} (h : s.inSession p = true) :
    ∃ v, s.session = some (v, false) ∧ p v = true := by
  simp only [inSession, Option.any_eq_true, Bool.and_eq_true, Bool.not_eq_true'] at h
  rcases h with ⟨⟨v, c⟩, hs, rfl, hp⟩
  exact ⟨v, hs, hp⟩

/-! ## A volume for examples -/

/-- One entry, and `volsize` chunks of 4096 bytes on one member. -/
def tinyVolume : Volume where
  args := tinyArgs
  backup := false
  volsize := 4
  tables_le := by decide
  volsize_lt := by decide
  fits := by decide

/-- A mount that meets no error. -/
def plainMount : MountEnv where
  setup := true
  chunkMem := fun _ => true
  heap := Bytes.zeros
  state := fun _ => false
  io := fun _ => .all
  alistMem := true
  regMem := fun _ => true

@[simp]
theorem plainMount_complete : plainMount.Complete := fun _ => Transfers.all_complete

/-- An unmount that meets no error. -/
def plainUmount : UmountEnv := ⟨fun _ => .all, fun _ => .all⟩

@[simp]
theorem plainUmount_complete : plainUmount.Complete := fun _ =>
  ⟨Transfers.all_complete, Transfers.all_complete⟩

/-- A file of `n` zeros that is read and copied without an error. -/
def plainFile (n : Nat) (h : n < 2 ^ 63) : AddEnv where
  opened := true
  stat := true
  isReg := true
  stSize := n
  stSize_lt := h
  data := Bytes.zeros
  regMem := true
  tmpChk := some Bytes.zeros
  mhashInit := true
  hashSeek := true
  hashRead := fun _ => some n
  hashCancel := fun _ => false
  timestamp := 0
  copySeek := true
  copyRead := fun _ => some n
  io := fun _ => .all
  copyCancel := fun _ => false

@[simp]
theorem plainFile_complete (n : Nat) (h : n < 2 ^ 63) : (plainFile n h).Complete := fun _ =>
  Transfers.all_complete

/-- Such a file of one byte. -/
def byteFile : AddEnv := plainFile 1 (by decide)

/-- A token with a path only. -/
def plainToken (path : CString) : Token := ⟨path, none, none, none, .auto⟩

/-- A digest library whose digests are all ones. -/
def onesLib : MhashLib := fun _ _ _ => 1

end Minipython.Tools.Admin
