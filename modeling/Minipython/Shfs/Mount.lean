/-
# Minipython.Shfs.Mount — mounting a volume (shfs.c, shfs_cache.c, mempool.c, htable.c)

`mount_shfs` opens devices and allocates memory in six stages, each with its own way out. Every function
here returns its result together with the ledger of what it has acquired and released, in order.

`MountEnv` holds what a mount meets: which device opens, what its label says, and which read and which
allocation succeeds. An allocation goes by its place in the code, which is passed at most once in a mount.

The six stages are the label and the members, the pool of tokens, the configuration chunk, the bucket table
with its chunks, the buffer for a remount, and the cache. A stage that fails undoes what is its own and
jumps to the way out of the one before, as the labels in the code do. What `mount_shfs` returns is the value
of the variable `ret` at that point, which not every failing branch sets.
-/
import Minipython.Lib.Ledger
import Minipython.Minios.Ring
import Minipython.Shfs.Defs
import Minipython.Shfs.Volume

namespace Minipython.Shfs

open Minipython.Lib
open Minipython.Lib.Ledger (acquires releases)
open Minipython.Minios (powerOf2 powerOf2_iff)

/-! ## What a mount meets -/

/-- The memory that a mount allocates. -/
inductive MountObj where
  | chk0
  | chk1
  | aiotokenPool
  | aiotokenRing
  | htableChunkCache
  | htableChunk (c : Nat)
  | btable
  | btableBkt (i : Nat)
  | remountChunkBuffer
  | chunkcache
  | cachePool
  | cachePoolData
  | cachePoolRing
  deriving DecidableEq, Repr

/-- What a mount acquires: devices, by their id, and memory. -/
inductive Resource where
  | dev (id : Nat)
  | obj (o : MountObj)
  deriving DecidableEq, Repr

abbrev Log := List (Entry Resource)

/-- `bd->info` of an open device. -/
structure BlkdevInfo where
  sectorSize : UInt32
  sectors : UInt64
  deriving DecidableEq, Repr

/-- `MAX_DISKSIZE`. -/
def maxDisksize : UInt64 := 0x10000000000

/-- `blkdev_sectors`. -/
def BlkdevInfo.blkdevSectors (i : BlkdevInfo) : UInt64 :=
  if i.sectors * i.sectorSize.toUInt64 > maxDisksize then maxDisksize / i.sectorSize.toUInt64
  else i.sectors

/-- `blkdev_size`. -/
def BlkdevInfo.blkdevSize (i : BlkdevInfo) : UInt64 := i.blkdevSectors * i.sectorSize.toUInt64

/-- What a mount meets. -/
structure MountEnv where
  /-- `bd_id`, of which there are `count` -/
  bdId : List Nat
  openOk : Nat → Bool
  info : Nat → BlkdevInfo
  /-- the label of a device, if it can be read -/
  label : Nat → Option HdrCommon
  /-- the second read of the label of the first member succeeds -/
  reread : Bool
  malloc : MountObj → Bool
  /-- the configuration chunk, if it can be read -/
  chk1 : Option HdrConfig
  /-- the read of a table chunk can be set up -/
  setup : Nat → Bool
  /-- a chunk of the volume, if it can be read -/
  chunk : Nat → Option Bytes

/-- The negative results of `mount_shfs`. -/
inductive MountErr where
  | errno (e : Errno)
  | enotsup
  | io
  deriving DecidableEq, Repr

/-! ## Devices and labels -/

/-- `MAX_NB_TRY_BLKDEVS`. -/
def maxNbTryBlkdevs : Nat := 64

/-- An open device with a label that `shfs_detect_hdr0` accepts. -/
structure Detected where
  bd : Nat
  hdr : HdrCommon
  hdr_ok : ¬ shfsDetectHdr0 hdr < 0

/-- `shfs_checkopen_blkdev`. -/
def shfsCheckopenBlkdev (env : MountEnv) (d : Nat) : Option Detected × Log :=
  if !env.openOk d then (none, [])
  else
    let ssize := (env.info d).sectorSize
    if ssize > 4096 ∨ ssize < 512 ∨ powerOf2 ssize = false then
      (none, acquires [.dev d] ++ releases [.dev d])
    else
      match env.label d with
      | none => (none, acquires [.dev d] ++ releases [.dev d])
      | some h =>
          if hd : shfsDetectHdr0 h < 0 then (none, acquires [.dev d] ++ releases [.dev d])
          else (some ⟨d, h, hd⟩, acquires [.dev d])

/-- The loop of `load_vol_cconf` over the devices. -/
def detectMembers (env : MountEnv) : List Nat → List Detected × Log
  | [] => ([], [])
  | d :: ds =>
      let r := shfsCheckopenBlkdev env d
      let rs := detectMembers env ds
      (r.1.toList ++ rs.1, r.2 ++ rs.2)

/-- `member_stripemode`. -/
def stripemodeOf (c : UInt8) : Option StripeMode :=
  if c = shfsSmCombined then some .combined
  else if c = shfsSmIndependent then some .independent
  else none

/-- The members of a volume in the order of its label, as far as they were detected. -/
def findMembers (h : HdrCommon) (det : List Detected) : List Nat :=
  (List.range h.memberCount.toNat).filterMap fun i =>
    (det.find? fun d => h.member i = d.hdr.memberUuid).map Detected.bd

/-- `ioalign` with one more device, whose alignment is its sector size. -/
def ioalignWith (ioalign ssize : UInt32) : Except Fault UInt32 :=
  if ssize > ioalign then
    if ioalign = 0 ∨ ssize % ioalign = 0 then .ok ssize else .error .assert
  else if ioalign % ssize = 0 then .ok ioalign
  else .error .assert

/-- The loop of `load_vol_cconf` that sets `ioalign` and `sfactor`; `none` is its way out. -/
def setupMembers (env : MountEnv) (stripesize : UInt32) :
    List Nat → UInt32 → Except Fault (Option (UInt32 × List UInt32))
  | [], ioalign => .ok (some (ioalign, []))
  | d :: ds, ioalign => do
      let ssize := (env.info d).sectorSize
      let ioalign ← ioalignWith ioalign ssize
      let sfactor := stripesize / ssize
      if sfactor = 0 then return none
      match ← setupMembers env stripesize ds ioalign with
      | none => return none
      | some (a, sfactors) => return some (a, sfactor :: sfactors)

/-- `min_member_size`, in 64-bit arithmetic. -/
def minMemberSize (mode : StripeMode) (volsize : UInt64) (nbMembers : Nat) (stripesize : UInt32) :
    UInt64 :=
  match mode with
  | .combined => (volsize + 1) * stripesize.toUInt64
  | .independent => (volsize + 1) / UInt64.ofNat nbMembers * stripesize.toUInt64

/-- The stripe sizes that `load_vol_cconf` accepts. -/
theorem stripesize_cases {s : UInt32} (h : ¬(s > 32768 ∨ s < 4096 ∨ powerOf2 s = false)) :
    s.toNat = 4096 ∨ s.toNat = 8192 ∨ s.toNat = 16384 ∨ s.toNat = 32768 := by
  obtain ⟨hhi, hlo, hpow⟩ := not_or.1 h |>.imp_right not_or.1
  obtain ⟨k, -, hk⟩ := powerOf2_iff.1 (Bool.not_eq_false _ |>.mp hpow)
  have hle : s.toNat ≤ 32768 := UInt32.not_lt.1 hhi
  have hge : 4096 ≤ s.toNat := UInt32.not_lt.1 hlo
  have h1 : k < 16 := by
    rw [← Nat.pow_lt_pow_iff_right Nat.one_lt_two, ← hk]
    omega
  have h2 : 11 < k := by
    rw [← Nat.pow_lt_pow_iff_right Nat.one_lt_two, ← hk]
    omega
  rw [hk]
  obtain rfl | rfl | rfl | rfl : k = 12 ∨ k = 13 ∨ k = 14 ∨ k = 15 := by omega
  all_goals decide

theorem memberCount_bounds {h : HdrCommon} (hd : ¬ shfsDetectHdr0 h < 0) :
    0 < h.memberCount.toNat ∧ h.memberCount.toNat ≤ 16 := by
  unfold shfsDetectHdr0 at hd
  split at hd
  · exact absurd (by decide) hd
  split at hd
  · exact absurd (by decide) hd
  split at hd
  · exact absurd (by decide) hd
  split at hd
  · exact absurd (by decide) hd
  rename_i hcount
  obtain ⟨h0, h16⟩ := not_or.1 hcount
  exact ⟨Nat.pos_of_ne_zero fun h => h0 (UInt8.toNat_inj.1 h), Nat.le_of_not_lt h16⟩

/-- The low-level setup of a volume, `shfs_vol` after `load_vol_cconf`. -/
structure VolInfo where
  geom : VolGeom
  volsize : UInt64
  member : List Nat
  member_length : member.length = geom.nbMembers
  ioalign : UInt32
  sfactor : List UInt32

/-- `load_vol_cconf` from the label of the first detected device on; each of its errors goes to
`err_close_bds`. -/
def loadVolLabel (env : MountEnv) (d0 : Detected) (detected : List Detected) :
    Except Fault (Except MountErr VolInfo) :=
  if !env.reread then .ok (.error .io)
  else
    match stripemodeOf d0.hdr.memberStripemode with
    | none => .ok (.error .enotsup)
    | some mode =>
        let member := findMembers d0.hdr detected
        let s := d0.hdr.memberStripesize
        if hm : member.length ≠ d0.hdr.memberCount.toNat then .ok (.error (.errno .enoent))
        else if hs : s > 32768 ∨ s < 4096 ∨ powerOf2 s = false then .ok (.error (.errno .enoent))
        else do
          match ← setupMembers env s member 0 with
          | none => return .error (.errno .enoent)
          | some (ioalign, sfactor) =>
              let min := minMemberSize mode d0.hdr.volSize member.length s
              if member.any fun d => (env.info d).blkdevSize < min then
                return .error (.errno .enoent)
              else
                return .ok
                  { geom :=
                      { stripemode := mode
                        stripesize := s.toNat
                        nbMembers := member.length
                        stripesize_ok := stripesize_cases hs
                        nbMembers_pos := by
                          rw [not_not.1 hm]
                          exact (memberCount_bounds d0.hdr_ok).1
                        nbMembers_le := by
                          rw [not_not.1 hm]
                          exact (memberCount_bounds d0.hdr_ok).2 }
                    volsize := d0.hdr.volSize
                    member := member
                    member_length := rfl
                    ioalign := ioalign
                    sfactor := sfactor }

/-- `load_vol_cconf`. -/
def loadVolCconf (env : MountEnv) : Except Fault (Except MountErr VolInfo × Log) :=
  if env.bdId.length > maxNbTryBlkdevs then .ok (.error (.errno .einval), [])
  else if !env.malloc .chk0 then .ok (.error (.errno .enomem), [])
  else
    let found := detectMembers env env.bdId
    let opened := acquires [.obj .chk0] ++ found.2
    let chk0 := releases [.obj .chk0]
    match found.1 with
    | [] => .ok (.error (.errno .enodev), opened ++ chk0)
    | d0 :: det => do
        match ← loadVolLabel env d0 (d0 :: det) with
        | .error e => return (.error e, opened ++ releases (found.1.map fun d => .dev d.bd) ++ chk0)
        | .ok info =>
            let unused := found.1.filter fun d => d.bd ∉ info.member
            return (.ok info, opened ++ releases (unused.map fun d => .dev d.bd) ++ chk0)

/-! ## Memory -/

namespace Mount

/-- `alloc_enhanced_mempool`, where `data` is the place of the data area of a split pool. Behind the
allocation of that area the code tests the pool again, so it goes on without one. -/
def allocEnhancedMempool (env : MountEnv) (pool : MountObj) (data : Option MountObj)
    (ring : MountObj) : Bool × Log :=
  if !env.malloc pool then (false, [])
  else
    let area := (data.toList.filter fun o => env.malloc o).map .obj
    let got := acquires [.obj pool] ++ acquires area
    if !env.malloc ring then (false, got ++ releases area ++ releases [.obj pool])
    else (true, got ++ acquires [.obj ring])

/-- `free_mempool` of a pool without a data area. -/
def freeMempool (pool ring : MountObj) : Log := releases [.obj ring] ++ releases [.obj pool]

/-- `alloc_htable` for the bucket table. -/
def allocBtable (env : MountEnv) (nbBkts : Nat) : Bool × Log :=
  if !env.malloc .btable then (false, [])
  else
    let bkts := ((List.range nbBkts).takeWhile fun i => env.malloc (.btableBkt i)).map
      fun i => .obj (.btableBkt i)
    let got := acquires [.obj .btable] ++ acquires bkts
    if bkts.length < nbBkts then (false, got ++ releases bkts ++ releases [.obj .btable])
    else (true, got)

/-- `shfs_free_btable`. -/
def freeBtable (nbBkts : Nat) : Log :=
  releases ((List.range nbBkts).map fun i => .obj (.btableBkt i)) ++ releases [.obj .btable]

/-- The first `n` chunks of the table in memory. -/
def htableChunks (n : Nat) : List Resource := (List.range n).map fun c => .obj (.htableChunk c)

/-- The release of the chunk cache of the table, of which `n` chunks are allocated. -/
def freeChunkCache (n : Nat) : Log := releases (htableChunks n) ++ releases [.obj .htableChunkCache]

/-- `shfs_alloc_cache`. -/
def shfsAllocCache (env : MountEnv) : Option MountErr × Log :=
  if !env.malloc .chunkcache then (some (.errno .enomem), [])
  else
    let r := allocEnhancedMempool env .cachePool (some .cachePoolData) .cachePoolRing
    let got := acquires [.obj .chunkcache] ++ r.2
    if !r.1 then (some (.errno .enomem), got ++ releases [.obj .chunkcache]) else (none, got)

/-! ## The hash table -/

/-- `load_vol_hconf`. -/
def loadVolHconfChunk (env : MountEnv) (g : VolGeom) : Except MountErr VolConf × Log :=
  if !env.malloc .chk1 then (.error (.errno .enomem), [])
  else
    let log := acquires [.obj .chk1] ++ releases [.obj .chk1]
    match env.chk1 with
    | none => (.error .io, log)
    | some hdr =>
        match loadVolHconf g hdr with
        | .error e => (.error (.errno e), log)
        | .ok conf => (.ok conf, log)

/-- The loop of `load_vol_htable` that allocates the chunks from `c` on and sets up their reads. It
answers how many chunks are allocated when it ends. -/
def readChunks (env : MountEnv) : Nat → Nat → Option MountErr × Nat
  | 0, c => (none, c)
  | k + 1, c =>
      if !env.malloc (.htableChunk c) then (some (.errno .enomem), c)
      else if !env.setup c then (some (.errno .eio), c + 1)
      else readChunks env k (c + 1)

/-- `load_vol_htable`. -/
def loadVolHtableChunks (env : MountEnv) (conf : VolConf) :
    Except Fault (Except MountErr Vol × Log) :=
  if !env.malloc .htableChunkCache then .ok (.error (.errno .enomem), [])
  else
    let r := readChunks env conf.htableLen 0
    let got := acquires [.obj .htableChunkCache] ++ acquires (htableChunks r.2)
    match r.1 with
    | some e => .ok (.error e, got ++ freeChunkCache r.2)
    | none =>
        let bt := allocBtable env conf.htableNbBuckets
        if !bt.1 then .ok (.error (.errno .enomem), got ++ bt.2 ++ freeChunkCache r.2)
        else do
          match ← loadVolHtable conf env.chunk with
          | .error e =>
              return (.error (.errno e),
                got ++ bt.2 ++ freeBtable conf.htableNbBuckets ++ freeChunkCache r.2)
          | .ok v => return (.ok v, got ++ bt.2)

/-! ## Mounting -/

/-- What a call of `mount_shfs` leaves behind. Without an error it returns 0. -/
structure Mounted where
  ret : Option MountErr
  shfsMounted : Bool
  info : Option VolInfo
  vol : Option Vol
  log : Log

/-- `mount_shfs` behind `load_vol_cconf`, whose ledger is `log`. -/
def mountVol (env : MountEnv) (info : VolInfo) (log : Log) : Except Fault Mounted :=
  let closeMembers := releases (info.member.map .dev)
  let pool := allocEnhancedMempool env .aiotokenPool none .aiotokenRing
  let log := log ++ pool.2
  -- here `ret` is still that of `load_vol_cconf`
  if !pool.1 then .ok ⟨none, false, some info, none, log ++ closeMembers⟩
  else
    let hconf := loadVolHconfChunk env info.geom
    let log := log ++ hconf.2
    let freePool := freeMempool .aiotokenPool .aiotokenRing
    match hconf.1 with
    | .error e => .ok ⟨some e, false, some info, none, log ++ freePool ++ closeMembers⟩
    | .ok conf => do
        let (table, tableLog) ← loadVolHtableChunks env conf
        let log := log ++ tableLog
        match table with
        | .error e => return ⟨some e, false, some info, none, log ++ closeMembers⟩
        | .ok vol =>
            let freeHtable := freeChunkCache conf.htableLen ++ freeBtable conf.htableNbBuckets
            -- here `ret` is still that of `load_vol_htable`
            if !env.malloc .remountChunkBuffer then
              return ⟨none, false, some info, some vol, log ++ freeHtable ++ freePool ++ closeMembers⟩
            let cache := shfsAllocCache env
            let log := log ++ acquires [.obj .remountChunkBuffer] ++ cache.2
            match cache.1 with
            | some e =>
                return ⟨some e, false, some info, some vol,
                  log ++ releases [.obj .remountChunkBuffer] ++ freeHtable ++ freePool ++ closeMembers⟩
            | none => return ⟨none, true, some info, some vol, log⟩

/-- `mount_shfs`, called while `shfs_mounted` is `before`. -/
def mountShfs (env : MountEnv) (before : Bool) : Except Fault Mounted :=
  if env.bdId.length = 0 then .ok ⟨some (.errno .einval), before, none, none, []⟩
  else if before then .ok ⟨some (.errno .ealready), before, none, none, []⟩
  else do
    let (r, log) ← loadVolCconf env
    match r with
    | .error e => return ⟨some e, false, none, none, log⟩
    | .ok info => mountVol env info log

end Mount

end Minipython.Shfs
