/-
# Minipython.Minios.BlkdevOpen — devices that several owners share (blkdev.c)

`open_blkdev` keeps one `struct blkdev` for each device number, on a list that it searches first, and counts
its owners. `close_blkdev` gives the device up with its last owner. A device that was opened with `O_EXCL`
has one owner.

`deviceSharing` is the list under any sequence of calls, with the handles that its callers hold next to it.
`Shared` says how the two belong together, and `device_sharing` what follows for each call.

A call is one step of the machine: no other call of the list comes in between, and every allocation or
initialization of an `open_blkdev` may fail at its own place (`openBlkdev_outcome` lists what can come out).
A caller closes a handle once. Under that discipline no run has a fault, a device is on the list as long as
it has a handle, and it is there once.

The count is an `unsigned int` that nobody checks. A device with `2 ^ 32` handles has a count of zero while
it is on the list, and the close behind the next open gives it up under all the others
(`device_sharing_wraps`). So `CountFits` is part of the runs that `device_sharing` speaks about: no open of
a device that has `2 ^ 32 - 1` handles. Everything else holds without a condition.
-/
import Minipython.Lib.DList
import Minipython.Lib.Machine
import Minipython.Lib.Word
import Minipython.Minios.Blkdev

namespace Minipython.Minios

open Minipython.Lib
open Minipython.Shfs (Fault)

/-! ## The code -/

/-- `struct blkdev`, with the addresses of its device and of its pool as numbers. -/
structure Blkdev where
  dev : Nat
  info : BlkfrontInfo
  reqpool : Nat
  id : UInt32
  fd : Int
  exclusive : Bool
  refcount : UInt32
  deriving DecidableEq, Repr

/-- `_open_bd_list` and the heap that it is in: `blocks`, `pools` and `blkfronts` are what `xmalloc`,
`alloc_simple_mempool` and `init_blkfront` have given out. -/
structure BlkdevList where
  openBdList : Option Nat
  links : Links Nat
  bd : Nat → Blkdev
  blocks : Finset Nat
  pools : Finset Nat
  mempool : Nat → Mempool
  blkfronts : Finset Nat
  errno : Int

/-- `CONFIG_SELECT_POLL`, `MAX_REQUESTS` and the size of `struct _blkdev_req`. -/
structure BlkdevConf where
  selectPoll : Bool
  maxRequests : UInt32
  reqSize : UInt64

/-- What a call of `open_blkdev` is answered: by `xmalloc`, by `alloc_simple_mempool`, by `init_blkfront` and
by `blkfront_open`. -/
structure OpenEnv where
  bd : Option Nat
  reqpool : Nat
  mem : MempoolMem
  blkfront : Option (Nat × BlkfrontInfo)
  fd : Int

/-- Write the `refcount` field of `bd`. -/
def setRefcount (s : BlkdevList) (bd : Nat) (n : UInt32) : BlkdevList :=
  { s with bd := Function.update s.bd bd { s.bd bd with refcount := n } }

/-- The search of `open_blkdev`: no more devices are open than there are blocks. -/
def findBlkdev (s : BlkdevList) (id : UInt32) : Option Nat :=
  (DList.walk s.links.next s.blocks.card s.openBdList).find? fun bd => (s.bd bd).id == id

/-- The device does not have the requested permissions. -/
def modeDenied (info : BlkfrontInfo) (mode : OpenMode) : Bool :=
  (mode.wronly && !(info.mode.wronly || info.mode.rdwr)) || (mode.rdwr && !info.mode.rdwr)

/-- `err_free_bd`. -/
def errFreeBd (s : BlkdevList) (bd : Nat) : BlkdevList := { s with blocks := s.blocks.erase bd }

/-- `err_free_reqpool`. -/
def errFreeReqpool (s : BlkdevList) (bd : Nat) (reqpool : Nat) : Except Fault BlkdevList := do
  freeMempool (s.mempool reqpool)
  return errFreeBd { s with pools := s.pools.erase reqpool } bd

/-- `err_shutdown_blkfront`, where `err_close_blkfront` goes on. -/
def errShutdownBlkfront (s : BlkdevList) (bd : Nat) (reqpool : Nat) (dev : Nat) : Except Fault BlkdevList :=
  errFreeReqpool { s with blkfronts := s.blkfronts.erase dev } bd reqpool

/-- Link a device to the head of the list. -/
def linkBlkdev (s : BlkdevList) (bd : Nat) : BlkdevList :=
  let L := DList.setNext (DList.setPrev s.links bd none) bd s.openBdList
  { s with
    openBdList := some bd
    links :=
      match L.next bd with
      | some n => DList.setPrev L n (some bd)
      | none => L }

/-- `open_blkdev` from `alloc_simple_mempool` on, for a device that is not open. -/
def initBlkdev (conf : BlkdevConf) (s : BlkdevList) (bd : Nat) (id : UInt32) (mode : OpenMode)
    (env : OpenEnv) :
    Except Fault (Option Nat × BlkdevList) := do
  match ← allocSimpleMempool conf.maxRequests conf.reqSize env.mem with
  | none => return (none, errFreeBd { s with errno := enomem } bd)
  | some p =>
      let s := { s with
        pools := insert env.reqpool s.pools, mempool := Function.update s.mempool env.reqpool p }
      match env.blkfront with
      | none => return (none, ← errFreeReqpool { s with errno := enodev } bd env.reqpool)
      | some (dev, info) =>
          let s := { s with
            blkfronts := insert dev s.blkfronts
            bd := Function.update s.bd bd ⟨dev, info, env.reqpool, id, env.fd, mode.excl, 1⟩ }
          if modeDenied info mode = true then
            return (none, ← errShutdownBlkfront { s with errno := eacces } bd env.reqpool dev)
          else if conf.selectPoll = true ∧ env.fd < 0 then
            return (none, ← errShutdownBlkfront s bd env.reqpool dev)
          else return (some bd, linkBlkdev s bd)

/-- `open_blkdev`. -/
def openBlkdev (conf : BlkdevConf) (s : BlkdevList) (id : UInt32) (mode : OpenMode) (env : OpenEnv) :
    Except Fault (Option Nat × BlkdevList) :=
  match findBlkdev s id with
  | some bd =>
      if mode.excl = true ∨ (s.bd bd).exclusive = true then .ok (none, { s with errno := ebusy })
      else if modeDenied (s.bd bd).info mode = true then .ok (none, { s with errno := eacces })
      else .ok (some bd, setRefcount s bd ((s.bd bd).refcount + 1))
  | none =>
      match env.bd with
      | none => .ok (none, { s with errno := enomem })
      | some bd => initBlkdev conf { s with blocks := insert bd s.blocks } bd id mode env

/-- The unlinking in `close_blkdev`: the element behind first, then the element in front or the head. -/
def unlinkBlkdev (s : BlkdevList) (bd : Nat) : BlkdevList :=
  let L :=
    match s.links.next bd with
    | some n => DList.setPrev s.links n (s.links.prev bd)
    | none => s.links
  match L.prev bd with
  | some p => { s with links := DList.setNext L p (L.next bd) }
  | none => { s with links := L, openBdList := L.next bd }

/-- `close_blkdev`. -/
def closeBlkdev (s : BlkdevList) (bd : Nat) : Except Fault BlkdevList :=
  let s := setRefcount s bd ((s.bd bd).refcount - 1)
  if (s.bd bd).refcount = 0 then do
    let s := unlinkBlkdev s bd
    let s := { s with blkfronts := s.blkfronts.erase (s.bd bd).dev }
    freeMempool (s.mempool (s.bd bd).reqpool)
    return { s with pools := s.pools.erase (s.bd bd).reqpool, blocks := s.blocks.erase bd }
  else .ok s

/-! ## The callers -/

/-- What a successful `open_blkdev` has returned, and whether `O_EXCL` was set. -/
structure BlkdevHandle where
  bd : Nat
  excl : Bool
  deriving DecidableEq, Repr

/-- The list, the handles that are not closed, and how often each device was opened and closed. -/
structure DeviceSharing where
  devs : BlkdevList
  handles : List BlkdevHandle
  opens : UInt32 → Nat
  closes : UInt32 → Nat

inductive SharingEvent where
  | openBlkdev (id : UInt32) (mode : OpenMode) (env : OpenEnv)
  | closeBlkdev (h : BlkdevHandle)

/-- What is allocated is not in use. -/
structure OpenEnv.Fresh (env : OpenEnv) (s : BlkdevList) : Prop where
  bd : ∀ b, env.bd = some b → b ∉ s.blocks
  reqpool : env.reqpool ∉ s.pools
  blkfront : ∀ d info, env.blkfront = some (d, info) → d ∉ s.blkfronts

instance (env : OpenEnv) (s : BlkdevList) : Decidable (env.Fresh s) :=
  decidable_of_iff ((∀ b ∈ env.bd.toList, b ∉ s.blocks) ∧ env.reqpool ∉ s.pools ∧
      ∀ front ∈ env.blkfront.toList, front.1 ∉ s.blkfronts) (by
    constructor
    · rintro ⟨h1, h2, h3⟩
      exact ⟨fun b hb => h1 b (Option.mem_toList.2 hb), h2,
        fun d info hd => h3 (d, info) (Option.mem_toList.2 hd)⟩
    · rintro ⟨h1, h2, h3⟩
      exact ⟨fun b hb => h1 b (Option.mem_toList.1 hb), h2,
        fun front hd => h3 front.1 front.2 (Option.mem_toList.1 hd)⟩)

def sharingEnabled (s : DeviceSharing) : SharingEvent → Prop
  | .openBlkdev _ _ env => env.Fresh s.devs
  | .closeBlkdev h => h ∈ s.handles

instance (s : DeviceSharing) : (e : SharingEvent) → Decidable (sharingEnabled s e)
  | .openBlkdev _ _ env => inferInstanceAs (Decidable (env.Fresh s.devs))
  | .closeBlkdev h => inferInstanceAs (Decidable (h ∈ s.handles))

/-- The device number of a handle. -/
def DeviceSharing.idOf (s : DeviceSharing) (h : BlkdevHandle) : UInt32 := (s.devs.bd h.bd).id

/-- One more in a count for each device. -/
def countUp (n : UInt32 → Nat) (id : UInt32) : UInt32 → Nat := Function.update n id (n id + 1)

def sharingNext (conf : BlkdevConf) (s : DeviceSharing) : SharingEvent → Except Fault DeviceSharing
  | .openBlkdev id mode env => do
      match ← openBlkdev conf s.devs id mode env with
      | (none, devs) => return { s with devs := devs }
      | (some bd, devs) =>
          return { s with devs := devs, handles := ⟨bd, mode.excl⟩ :: s.handles, opens := countUp s.opens id }
  | .closeBlkdev h => do
      let devs ← closeBlkdev s.devs h.bd
      return { s with devs := devs, handles := s.handles.erase h, closes := countUp s.closes (s.idOf h) }

/-- The devices under their callers. -/
def deviceSharing (conf : BlkdevConf) : Machine DeviceSharing SharingEvent Fault :=
  ⟨sharingEnabled, sharingNext conf⟩

instance (conf : BlkdevConf) (s : DeviceSharing) (e : SharingEvent) :
    Decidable ((deviceSharing conf).Enabled s e) := inferInstanceAs (Decidable (sharingEnabled s e))

/-- No device is open. -/
def noDevices (links : Links Nat) (bd : Nat → Blkdev) (mempool : Nat → Mempool) : DeviceSharing :=
  ⟨⟨none, links, bd, ∅, ∅, mempool, ∅, 0⟩, [], fun _ => 0, fun _ => 0⟩

/-! ## The reference count -/

section

variable (s : BlkdevList) (bd : Nat) (n : UInt32) (x : Nat)

theorem setRefcount_bd :
    (setRefcount s bd n).bd x = if x = bd then { s.bd bd with refcount := n } else s.bd x :=
  Function.update_apply s.bd bd _ x

@[simp] theorem setRefcount_refcount :
    ((setRefcount s bd n).bd x).refcount = if x = bd then n else (s.bd x).refcount := by
  rw [setRefcount_bd]
  split <;> rfl

/-- A function of the other fields does not see the count. -/
theorem setRefcount_apply {α : Type} (f : Blkdev → α) (hf : ∀ b k, f { b with refcount := k } = f b) :
    f ((setRefcount s bd n).bd x) = f (s.bd x) := by
  rw [setRefcount_bd]
  split
  · rename_i hx
    rw [hx, hf]
  · rfl

@[simp] theorem setRefcount_id : ((setRefcount s bd n).bd x).id = (s.bd x).id :=
  setRefcount_apply s bd n x (·.id) fun _ _ => rfl

@[simp] theorem setRefcount_dev : ((setRefcount s bd n).bd x).dev = (s.bd x).dev :=
  setRefcount_apply s bd n x (·.dev) fun _ _ => rfl

@[simp] theorem setRefcount_reqpool : ((setRefcount s bd n).bd x).reqpool = (s.bd x).reqpool :=
  setRefcount_apply s bd n x (·.reqpool) fun _ _ => rfl

@[simp] theorem setRefcount_exclusive : ((setRefcount s bd n).bd x).exclusive = (s.bd x).exclusive :=
  setRefcount_apply s bd n x (·.exclusive) fun _ _ => rfl

end

/-! ## What a call can do -/

section

variable {conf : BlkdevConf} {s : BlkdevList} {id : UInt32} {mode : OpenMode} {env : OpenEnv}

/-- A new pool has all its objects, so that it can be freed at once. -/
theorem allocSimpleMempool_ok {n : UInt32} (h1 : 1 ≤ n.toNat) (h2 : n.toNat < 2 ^ 30) (size : UInt64)
    (m : MempoolMem) :
    ∃ o, allocSimpleMempool n size m = .ok o ∧ ∀ p, o = some p → freeMempool p = .ok () := by
  have htotal : ∃ o, allocSimpleMempool n size m = .ok o := by
    unfold allocSimpleMempool allocEnhancedMempool
    rw [if_neg (fun h => h.1 rfl)]
    cases m.pool with
    | none => exact ⟨none, rfl⟩
    | some pool =>
        show ∃ o, (allocRing ((1 : UInt32) <<< (log2 n + 1)) m.ring >>= _) = .ok o
        unfold allocRing
        rw [if_neg (not_not.2 (ringSize_ok h1 h2))]
        cases m.ring with
        | none => exact ⟨none, rfl⟩
        | some ring => exact ⟨_, rfl⟩
  rcases htotal with ⟨o, ho⟩
  refine ⟨o, ho, fun p hp => ?_⟩
  subst hp
  rcases alloc_spec h1 h2 ho with ⟨-, -, -, hnb, hholds, -, -⟩
  apply if_neg
  rw [not_not, ← UInt32.toNat_inj, hnb, ringCount_eq hholds, List.length_range]

/-- What a call of `open_blkdev` can do: fail, and leave all that was allocated alone; count one more owner of
an open device, where none is exclusive; or open the device. -/
inductive OpenOutcome (s : BlkdevList) (id : UInt32) (mode : OpenMode) (env : OpenEnv) :
    Option Nat × BlkdevList → Prop
  | failed (bd : Nat → Blkdev) (mempool : Nat → Mempool) (errno : Int) (hbd : ∀ x ∈ s.blocks, bd x = s.bd x)
      (hpool : ∀ p ∈ s.pools, mempool p = s.mempool p) :
      OpenOutcome s id mode env (none, { s with bd := bd, mempool := mempool, errno := errno })
  | shared (bd : Nat) (hfind : findBlkdev s id = some bd) (hmode : mode.excl = false)
      (hexcl : (s.bd bd).exclusive = false) :
      OpenOutcome s id mode env (some bd, setRefcount s bd ((s.bd bd).refcount + 1))
  | opened (bd dev : Nat) (info : BlkfrontInfo) (p : Mempool) (hfind : findBlkdev s id = none)
      (hbd : bd ∉ s.blocks) (hdev : dev ∉ s.blkfronts) (hfree : freeMempool p = .ok ()) :
      OpenOutcome s id mode env (some bd, linkBlkdev { s with
        blocks := insert bd s.blocks
        pools := insert env.reqpool s.pools
        mempool := Function.update s.mempool env.reqpool p
        blkfronts := insert dev s.blkfronts
        bd := Function.update s.bd bd ⟨dev, info, env.reqpool, id, env.fd, mode.excl, 1⟩ } bd)

/-- An update at an address that is not in use leaves what is in use alone. -/
theorem update_of_fresh {α : Type} {A : Finset Nat} {a : Nat} (ha : a ∉ A) (f : Nat → α) (v : α) :
    ∀ x ∈ A, Function.update f a v x = f x :=
  fun _ hx => Function.update_of_ne (ne_of_mem_of_not_mem hx ha) v f

/-- The part behind the search returns; if it fails, it has freed what it has allocated. -/
theorem initBlkdev_outcome (h1 : 1 ≤ conf.maxRequests.toNat) (h2 : conf.maxRequests.toNat < 2 ^ 30)
    (hfresh : env.Fresh s) {bd : Nat} (hfind : findBlkdev s id = none) (hbd : bd ∉ s.blocks) :
    ∃ r, initBlkdev conf { s with blocks := insert bd s.blocks } bd id mode env = .ok r ∧
      OpenOutcome s id mode env r := by
  have hblocks : (insert bd s.blocks).erase bd = s.blocks := Finset.erase_insert hbd
  have hpools : (insert env.reqpool s.pools).erase env.reqpool = s.pools :=
    Finset.erase_insert hfresh.reqpool
  rcases allocSimpleMempool_ok h1 h2 conf.reqSize env.mem with ⟨o, ho, hfree⟩
  unfold initBlkdev
  rw [ho]
  cases o with
  | none =>
      refine ⟨_, rfl, ?_⟩
      unfold errFreeBd
      rw [hblocks]
      exact .failed s.bd s.mempool enomem (fun _ _ => rfl) (fun _ _ => rfl)
  | some p =>
      have hfree' : freeMempool (Function.update s.mempool env.reqpool p env.reqpool) = .ok () := by
        rw [Function.update_self]
        exact hfree p rfl
      have hpool := update_of_fresh hfresh.reqpool s.mempool p
      cases hfront : env.blkfront with
      | none =>
          refine ⟨(none, { s with
            mempool := Function.update s.mempool env.reqpool p, errno := enodev }), ?_, ?_⟩
          · simp only [bind, Except.bind, errFreeReqpool, hfree', errFreeBd, hblocks, hpools]
            rfl
          · exact .failed s.bd _ enodev (fun _ _ => rfl) hpool
      | some front =>
          rcases front with ⟨dev, info⟩
          have hdev : dev ∉ s.blkfronts := hfresh.blkfront dev info hfront
          have hfronts : (insert dev s.blkfronts).erase dev = s.blkfronts := Finset.erase_insert hdev
          have hupd := update_of_fresh hbd s.bd ⟨dev, info, env.reqpool, id, env.fd, mode.excl, 1⟩
          by_cases hdenied : modeDenied info mode = true
          · refine ⟨(none, { s with
              bd := Function.update s.bd bd ⟨dev, info, env.reqpool, id, env.fd, mode.excl, 1⟩
              mempool := Function.update s.mempool env.reqpool p, errno := eacces }), ?_, ?_⟩
            · simp only [bind, Except.bind, if_pos hdenied, errShutdownBlkfront, errFreeReqpool, hfree',
                errFreeBd, hblocks, hpools, hfronts]
              rfl
            · exact .failed _ _ eacces hupd hpool
          · by_cases hfd : conf.selectPoll = true ∧ env.fd < 0
            · refine ⟨(none, { s with
                bd := Function.update s.bd bd ⟨dev, info, env.reqpool, id, env.fd, mode.excl, 1⟩
                mempool := Function.update s.mempool env.reqpool p }), ?_, ?_⟩
              · simp only [bind, Except.bind, if_neg hdenied, if_pos hfd, errShutdownBlkfront,
                  errFreeReqpool, hfree', errFreeBd, hblocks, hpools, hfronts]
                rfl
              · exact .failed _ _ s.errno hupd hpool
            · refine ⟨_, ?_, .opened bd dev info p hfind hbd hdev (hfree p rfl)⟩
              simp only [bind, Except.bind, if_neg hdenied, if_neg hfd]
              rfl

/-- A call returns, and does one of the three. -/
theorem openBlkdev_outcome (h1 : 1 ≤ conf.maxRequests.toNat) (h2 : conf.maxRequests.toNat < 2 ^ 30)
    (hfresh : env.Fresh s) : ∃ r, openBlkdev conf s id mode env = .ok r ∧ OpenOutcome s id mode env r := by
  unfold openBlkdev
  cases hfind : findBlkdev s id with
  | some bd =>
      by_cases hexcl : mode.excl = true ∨ (s.bd bd).exclusive = true
      · exact ⟨_, if_pos hexcl, .failed s.bd s.mempool ebusy (fun _ _ => rfl) (fun _ _ => rfl)⟩
      · rcases not_or.1 hexcl with ⟨hmode, hbd⟩
        by_cases hdenied : modeDenied (s.bd bd).info mode = true
        · refine ⟨_, (if_neg hexcl).trans (if_pos hdenied), ?_⟩
          exact .failed s.bd s.mempool eacces (fun _ _ => rfl) (fun _ _ => rfl)
        · refine ⟨_, (if_neg hexcl).trans (if_neg hdenied), ?_⟩
          exact .shared bd hfind (Bool.eq_false_iff.2 hmode) (Bool.eq_false_iff.2 hbd)
  | none =>
      cases hbd : env.bd with
      | none => exact ⟨_, rfl, .failed s.bd s.mempool enomem (fun _ _ => rfl) (fun _ _ => rfl)⟩
      | some bd => exact initBlkdev_outcome h1 h2 hfresh hfind (hfresh.bd bd hbd)

end

/-! ## The list -/

section

variable {s : BlkdevList} {l : List Nat} {bd : Nat}

/-- The members of `l` are on the list in this order. -/
def OnList (s : BlkdevList) (l : List Nat) : Prop := DList.Rep s.links ⟨s.openBdList, l.getLast?⟩ l

/-- Linking puts a device in front. -/
theorem OnList.link (h : OnList s l) (hbd : bd ∉ l) : OnList (linkBlkdev s bd) (bd :: l) := by
  have hfirst : s.openBdList = l.head? := h.first
  have hnd : (bd :: l).Nodup := List.nodup_cons.2 ⟨hbd, h.nodup⟩
  refine ⟨hnd, rfl, rfl, ?_⟩
  unfold linkBlkdev
  rw [hfirst]
  cases l with
  | nil => simp [DList.Seg]
  | cons y ys =>
      have hy : bd ≠ y := List.ne_of_not_mem_cons hbd
      simp only [List.head?_cons, DList.setNext_next, if_true]
      refine ⟨?_, ?_, ?_⟩
      · rw [DList.setPrev_prev, if_neg hy, DList.setNext_prev, DList.setPrev_prev, if_pos rfl]
      · rw [DList.setPrev_next, DList.setNext_next, if_pos rfl]
        rfl
      · -- the old list, which is written to only at its head
        apply DList.Seg.setPrev_head (p := none) _ (List.nodup_cons.1 h.nodup).1
        apply h.seg.congr
        · intro x hx
          rw [DList.setNext_next, if_neg (ne_of_mem_of_not_mem hx hbd), DList.setPrev_next]
        · intro x hx
          rw [DList.setNext_prev, DList.setPrev_prev, if_neg (ne_of_mem_of_not_mem hx hbd)]

/-- The unlinking writes what that of a list with two ends does, in the other order. -/
theorem unlinkBlkdev_eq (s : BlkdevList) (bd : Nat) (z : Option Nat) :
    (unlinkBlkdev s bd).links = (DList.unlink s.links ⟨s.openBdList, z⟩ bd).1 ∧
      (unlinkBlkdev s bd).openBdList = (DList.unlink s.links ⟨s.openBdList, z⟩ bd).2.first := by
  -- neither half changes what the other reads, even where an element is its own neighbour
  have hnext : (DList.bypassNext s.links ⟨s.openBdList, z⟩ bd).1.next bd = s.links.next bd := by
    unfold DList.bypassNext
    cases s.links.prev bd with
    | none => rfl
    | some p => rw [DList.setNext_next, ite_eq_right_iff.2 fun hp => by rw [hp]]
  have hprev : (DList.bypassNext s.links ⟨s.openBdList, z⟩ bd).1.prev bd = s.links.prev bd := by
    unfold DList.bypassNext
    cases hp : s.links.prev bd <;> exact hp
  unfold unlinkBlkdev DList.unlink DList.bypassPrev
  simp only [hnext, hprev]
  unfold DList.bypassNext
  cases hn : s.links.next bd with
  | none => cases s.links.prev bd <;> simp [hn]
  | some n =>
      -- where the element is the one behind, it gets the value that it has
      have hsame : (if bd = n then s.links.prev bd else s.links.prev bd) = s.links.prev bd := ite_self _
      simp only [DList.setPrev_prev, hsame]
      cases hp : s.links.prev bd <;> simp [hn, DList.setPrev, DList.setNext]

/-- It writes to the list only. -/
theorem unlinkBlkdev_frame (s : BlkdevList) (bd : Nat) : unlinkBlkdev s bd =
    { s with links := (unlinkBlkdev s bd).links, openBdList := (unlinkBlkdev s bd).openBdList } := by
  unfold unlinkBlkdev
  simp only
  split <;> rfl

/-- An owner of several gives a device up: only the count changes. -/
theorem closeBlkdev_more (h : 1 < (s.bd bd).refcount.toNat) :
    closeBlkdev s bd = .ok (setRefcount s bd ((s.bd bd).refcount - 1)) := by
  unfold closeBlkdev
  simp only [setRefcount_refcount, if_true]
  rw [if_neg]
  rw [Word.count_down_eq_zero (by omega)]
  omega

/-- The last owner gives a device up. -/
theorem closeBlkdev_last (h : (s.bd bd).refcount = 1)
    (hfree : freeMempool (s.mempool (s.bd bd).reqpool) = .ok ()) : closeBlkdev s bd =
      .ok { s with
        links := (unlinkBlkdev s bd).links
        openBdList := (unlinkBlkdev s bd).openBdList
        bd := (setRefcount s bd 0).bd
        blkfronts := s.blkfronts.erase (s.bd bd).dev
        pools := s.pools.erase (s.bd bd).reqpool
        blocks := s.blocks.erase bd } := by
  -- the fields that the unlinking reads are those of before
  have hlinks : (unlinkBlkdev (setRefcount s bd 0) bd).links = (unlinkBlkdev s bd).links := by
    rw [(unlinkBlkdev_eq _ bd none).1, (unlinkBlkdev_eq s bd none).1]
    rfl
  have hfirst : (unlinkBlkdev (setRefcount s bd 0) bd).openBdList = (unlinkBlkdev s bd).openBdList := by
    rw [(unlinkBlkdev_eq _ bd none).2, (unlinkBlkdev_eq s bd none).2]
    rfl
  have hzero : (1 : UInt32) - 1 = 0 := rfl
  unfold closeBlkdev
  rw [h, hzero]
  simp only [setRefcount_refcount, if_true]
  rw [unlinkBlkdev_frame, hlinks, hfirst]
  simp only [setRefcount_dev, setRefcount_reqpool]
  have hfree' : freeMempool ((setRefcount s bd 0).mempool (s.bd bd).reqpool) = .ok () := hfree
  rw [hfree']
  rfl

/-- Unlinking takes a device out, and its own fields stay. -/
theorem OnList.unlink (h : OnList s l) (hbd : bd ∈ l) : OnList (unlinkBlkdev s bd) (l.erase bd) := by
  rcases unlinkBlkdev_eq s bd l.getLast? with ⟨hlinks, hfirst⟩
  have hrep := DList.Rep.unlink_mem h hbd
  unfold OnList
  rw [hlinks, hfirst, ← hrep.last]
  exact hrep

/-- The search goes over the list. -/
theorem OnList.find (h : OnList s l) (hblocks : ∀ x, x ∈ s.blocks ↔ x ∈ l) (id : UInt32) :
    findBlkdev s id = l.find? fun bd => (s.bd bd).id == id := by
  have hfin : l.toFinset = s.blocks := Finset.ext fun x => by rw [List.mem_toFinset, hblocks]
  have hcard : l.length ≤ s.blocks.card := by
    rw [← hfin, List.toFinset_card_of_nodup h.nodup]
  unfold findBlkdev
  rw [DList.walk_traverses h.traverses.1 hcard]

end

/-! ## What belongs together -/

/-- The members of `l` own one each of what has been given out, and nothing else has been. -/
structure OneEach (l : List Nat) (f : Nat → Nat) (A : Finset Nat) : Prop where
  once : (l.map f).Nodup
  all : ∀ a, a ∈ A ↔ a ∈ l.map f

section

variable {l : List Nat} {f g : Nat → Nat} {A : Finset Nat} {x : Nat}

theorem OneEach.congr (h : OneEach l f A) (hfg : ∀ x ∈ l, g x = f x) : OneEach l g A := by
  have hmap : l.map g = l.map f := List.map_congr_left hfg
  exact ⟨hmap ▸ h.once, fun a => by rw [hmap, h.all]⟩

theorem OneEach.cons (h : OneEach l f A) (hx : f x ∉ A) : OneEach (x :: l) f (insert (f x) A) := by
  refine ⟨List.nodup_cons.2 ⟨fun hm => hx ((h.all _).2 hm), h.once⟩, fun a => ?_⟩
  rw [Finset.mem_insert, h.all, List.map_cons, List.mem_cons]

theorem OneEach.erase (h : OneEach l f A) (hx : x ∈ l) : OneEach (l.erase x) f (A.erase (f x)) := by
  have hperm : (l.map f).Perm (f x :: (l.erase x).map f) := (List.perm_cons_erase hx).map f
  rcases List.nodup_cons.1 (hperm.nodup_iff.1 h.once) with ⟨hnot, hnd⟩
  refine ⟨hnd, fun a => ?_⟩
  rw [Finset.mem_erase, h.all, hperm.mem_iff, List.mem_cons]
  constructor
  · rintro ⟨hne, rfl | ha⟩
    · exact absurd rfl hne
    · exact ha
  · intro ha
    exact ⟨fun he => hnot (he ▸ ha), .inr ha⟩

end

/-- The handles of a device. -/
def DeviceSharing.owners (s : DeviceSharing) (bd : Nat) : Nat := s.handles.countP fun h => h.bd == bd

/-- The handles of a device number. -/
def DeviceSharing.held (s : DeviceSharing) (id : UInt32) : Nat := s.handles.countP fun h => s.idOf h == id

/-- The call of `open_blkdev` returns a device. -/
def openSucceeds (conf : BlkdevConf) (s : BlkdevList) (id : UInt32) (mode : OpenMode) (env : OpenEnv) : Bool :=
  (openBlkdev conf s id mode env).toOption.any fun r => r.1.isSome

/-- No device gets `2 ^ 32` handles: a call of `open_blkdev` that succeeds finds at most `2 ^ 32 - 2` of
them. -/
def CountFits (conf : BlkdevConf) (s : DeviceSharing) : SharingEvent → Prop
  | .openBlkdev id mode env => openSucceeds conf s.devs id mode env = true → s.held id + 1 < 2 ^ 32
  | .closeBlkdev _ => True

instance (conf : BlkdevConf) (s : DeviceSharing) : (e : SharingEvent) → Decidable (CountFits conf s e)
  | .openBlkdev id mode env =>
      inferInstanceAs (Decidable (openSucceeds conf s.devs id mode env = true → s.held id + 1 < 2 ^ 32))
  | .closeBlkdev _ => inferInstanceAs (Decidable True)

/-- The list `l`, what its members own, and the handles: each device of the list has its number, its pool and
its driver for itself, and as many handles as its count says; all of them have the flag of the device, and an
exclusive device has one. -/
structure Shared (s : DeviceSharing) (l : List Nat) : Prop where
  chain : OnList s.devs l
  blocks : ∀ x, x ∈ s.devs.blocks ↔ x ∈ l
  pools : OneEach l (fun x => (s.devs.bd x).reqpool) s.devs.pools
  blkfronts : OneEach l (fun x => (s.devs.bd x).dev) s.devs.blkfronts
  full : ∀ x ∈ l, freeMempool (s.devs.mempool (s.devs.bd x).reqpool) = .ok ()
  ids : (l.map fun x => (s.devs.bd x).id).Nodup
  listed : ∀ h ∈ s.handles, h.bd ∈ l
  flag : ∀ h ∈ s.handles, h.excl = (s.devs.bd h.bd).exclusive
  positive : ∀ x ∈ l, 0 < (s.devs.bd x).refcount.toNat
  owners : ∀ x ∈ l, (s.devs.bd x).refcount.toNat = s.owners x
  exclusive : ∀ x ∈ l, (s.devs.bd x).exclusive = true → (s.devs.bd x).refcount = 1
  counts : ∀ id, s.opens id = s.closes id + s.held id

/-- Nothing is open. -/
theorem shared_none (links : Links Nat) (bd : Nat → Blkdev) (mempool : Nat → Mempool) :
    Shared (noDevices links bd mempool) [] where
  chain := DList.rep_empty links
  blocks x := by simp [noDevices]
  pools := ⟨List.nodup_nil, fun a => by simp [noDevices]⟩
  blkfronts := ⟨List.nodup_nil, fun a => by simp [noDevices]⟩
  full _ hx := (by cases hx)
  ids := List.nodup_nil
  listed _ hh := (by cases hh)
  flag _ hh := (by cases hh)
  positive _ hx := (by cases hx)
  owners _ hx := (by cases hx)
  exclusive _ hx := (by cases hx)
  counts _ := rfl

theorem countUp_apply (n : UInt32 → Nat) (id i : UInt32) :
    countUp n id i = n i + if i = id then 1 else 0 := by
  unfold countUp
  rw [Function.update_apply]
  split
  · rename_i hi
    rw [hi]
  · rfl

/-- Counting by a key, with one more element in front. -/
theorem countP_key_cons {α β : Type} [DecidableEq β] (f : α → β) (a : α) (l : List α) (b : β) :
    (a :: l).countP (fun x => f x == b) = l.countP (fun x => f x == b) + if b = f a then 1 else 0 := by
  rw [List.countP_cons]
  congr 1
  by_cases hb : b = f a
  · rw [if_pos hb, if_pos (beq_iff_eq.2 hb.symm)]
  · rw [if_neg hb, if_neg fun he => hb (beq_iff_eq.1 he).symm]

namespace Shared

variable {conf : BlkdevConf} {s : DeviceSharing} {l : List Nat} {id : UInt32} {mode : OpenMode}
  {env : OpenEnv}

/-- The search finds the device with a number, if it is open. -/
theorem find (h : Shared s l) (id : UInt32) :
    findBlkdev s.devs id = l.find? fun bd => (s.devs.bd bd).id == id := h.chain.find h.blocks id

theorem find_some (h : Shared s l) {bd : Nat} (hf : findBlkdev s.devs id = some bd) :
    bd ∈ l ∧ (s.devs.bd bd).id = id := by
  rw [h.find] at hf
  exact ⟨List.mem_of_find?_eq_some hf, beq_iff_eq.1 (List.find?_some hf :)⟩

theorem find_none (h : Shared s l) (hf : findBlkdev s.devs id = none) : ∀ x ∈ l, (s.devs.bd x).id ≠ id := by
  rw [h.find, List.find?_eq_none] at hf
  exact fun x hx he => hf x hx (beq_iff_eq.2 he)

/-- Two devices with one number are one. -/
theorem unique (h : Shared s l) {x y : Nat} (hx : x ∈ l) (hy : y ∈ l)
    (he : (s.devs.bd x).id = (s.devs.bd y).id) : x = y := List.inj_on_of_nodup_map h.ids hx hy he

/-- The handles of a device number are those of its device. -/
theorem held_eq (h : Shared s l) {x : Nat} (hx : x ∈ l) :
    s.held (s.devs.bd x).id = (s.devs.bd x).refcount.toNat := by
  rw [h.owners x hx]
  apply List.countP_congr
  intro k hk
  rw [beq_iff_eq, beq_iff_eq]
  exact ⟨fun he => h.unique (h.listed k hk) hx he, fun he => congrArg (fun b => (s.devs.bd b).id) he⟩

/-- The handles of a device are counted by the numbers that these have. -/
theorem held_congr (devs : BlkdevList) (hid : ∀ k ∈ s.handles, (devs.bd k.bd).id = s.idOf k) (i : UInt32) :
    s.held i = s.handles.countP fun k => (devs.bd k.bd).id == i :=
  List.countP_congr fun k hk => by rw [hid k hk]

/-- A failed call keeps all of it. -/
theorem failed (h : Shared s l) {bd : Nat → Blkdev} {mempool : Nat → Mempool} {errno : Int}
    (hbd : ∀ x ∈ s.devs.blocks, bd x = s.devs.bd x)
    (hpool : ∀ p ∈ s.devs.pools, mempool p = s.devs.mempool p) :
    Shared { s with devs := { s.devs with bd := bd, mempool := mempool, errno := errno } } l := by
  have hbd' : ∀ x ∈ l, bd x = s.devs.bd x := fun x hx => hbd x ((h.blocks x).2 hx)
  have hin : ∀ x ∈ l, (s.devs.bd x).reqpool ∈ s.devs.pools := fun x hx =>
    (h.pools.all _).2 (List.mem_map_of_mem hx)
  refine ⟨h.chain, h.blocks, ?_, ?_, ?_, ?_, h.listed, ?_, ?_, ?_, ?_, ?_⟩
  · exact h.pools.congr fun x hx => congrArg Blkdev.reqpool (hbd' x hx)
  · exact h.blkfronts.congr fun x hx => congrArg Blkdev.dev (hbd' x hx)
  · intro x hx
    show freeMempool (mempool (bd x).reqpool) = _
    rw [hbd' x hx, hpool _ (hin x hx)]
    exact h.full x hx
  · have hmap : (l.map fun x => (bd x).id) = l.map fun x => (s.devs.bd x).id :=
      List.map_congr_left fun x hx => by rw [hbd' x hx]
    exact hmap ▸ h.ids
  · intro k hk
    show k.excl = (bd k.bd).exclusive
    rw [hbd' _ (h.listed k hk)]
    exact h.flag k hk
  · intro x hx
    show 0 < (bd x).refcount.toNat
    rw [hbd' x hx]
    exact h.positive x hx
  · intro x hx
    show (bd x).refcount.toNat = s.owners x
    rw [hbd' x hx]
    exact h.owners x hx
  · intro x hx
    show (bd x).exclusive = true → (bd x).refcount = 1
    rw [hbd' x hx]
    exact h.exclusive x hx
  · intro i
    have hheld := held_congr { s.devs with bd := bd }
      (fun k hk => congrArg Blkdev.id (hbd' _ (h.listed k hk))) i
    show s.opens i = s.closes i + s.handles.countP fun k => (bd k.bd).id == i
    rw [← hheld]
    exact h.counts i

/-- What the counts are behind one more handle. -/
theorem held_cons (bd : Nat) (excl : Bool) (devs : BlkdevList)
    (hid : ∀ k ∈ s.handles, (devs.bd k.bd).id = s.idOf k) (i : UInt32) (opens closes : UInt32 → Nat) :
    DeviceSharing.held ⟨devs, ⟨bd, excl⟩ :: s.handles, opens, closes⟩ i =
      s.held i + if i = (devs.bd bd).id then 1 else 0 := by
  rw [held_congr devs hid]
  exact countP_key_cons (fun k : BlkdevHandle => (devs.bd k.bd).id) ⟨bd, excl⟩ s.handles i

theorem owners_cons (s : DeviceSharing) (bd : Nat) (excl : Bool) (devs : BlkdevList) (x : Nat)
    (opens closes : UInt32 → Nat) :
    DeviceSharing.owners ⟨devs, ⟨bd, excl⟩ :: s.handles, opens, closes⟩ x =
      s.owners x + if x = bd then 1 else 0 :=
  countP_key_cons BlkdevHandle.bd ⟨bd, excl⟩ s.handles x

/-- Another count for a device that is not exclusive, and other handles on the devices. -/
theorem recount (h : Shared s l) {bd : Nat} {n : UInt32} {handles : List BlkdevHandle}
    {opens closes : UInt32 → Nat} (hexcl : (s.devs.bd bd).exclusive = false) (hpos : 0 < n.toNat)
    (hhandles : ∀ k ∈ handles, k.bd ∈ l ∧ k.excl = (s.devs.bd k.bd).exclusive)
    (howners : ∀ x ∈ l, (if x = bd then n else (s.devs.bd x).refcount).toNat =
      DeviceSharing.owners ⟨setRefcount s.devs bd n, handles, opens, closes⟩ x)
    (hcounts : ∀ i, opens i =
      closes i + DeviceSharing.held ⟨setRefcount s.devs bd n, handles, opens, closes⟩ i) :
    Shared ⟨setRefcount s.devs bd n, handles, opens, closes⟩ l where
  chain := h.chain
  blocks := h.blocks
  pools := h.pools.congr fun x _ => setRefcount_reqpool _ _ _ _
  blkfronts := h.blkfronts.congr fun x _ => setRefcount_dev _ _ _ _
  full x hx := by
    rw [setRefcount_reqpool]
    exact h.full x hx
  ids := by
    simp only [setRefcount_id]
    exact h.ids
  listed k hk := (hhandles k hk).1
  flag k hk := by
    rw [setRefcount_exclusive]
    exact (hhandles k hk).2
  positive x hx := by
    have := h.positive x hx
    rw [setRefcount_refcount]
    split <;> omega
  owners x hx := by
    rw [setRefcount_refcount]
    exact howners x hx
  exclusive x hx hex := by
    rw [setRefcount_exclusive] at hex
    have hne : x ≠ bd := fun he => by
      rw [he, hexcl] at hex
      cases hex
    rw [setRefcount_refcount, if_neg hne]
    exact h.exclusive x hx hex
  counts := hcounts

/-- One more owner of an open device. -/
theorem share (h : Shared s l) {bd : Nat} (hfind : findBlkdev s.devs id = some bd) (hmode : mode.excl = false)
    (hexcl : (s.devs.bd bd).exclusive = false) (hfit : s.held id + 1 < 2 ^ 32) :
    Shared { s with
      devs := setRefcount s.devs bd ((s.devs.bd bd).refcount + 1)
      handles := ⟨bd, mode.excl⟩ :: s.handles, opens := countUp s.opens id } l := by
  rcases h.find_some hfind with ⟨hmem, hid⟩
  have hup : ((s.devs.bd bd).refcount + 1).toNat = (s.devs.bd bd).refcount.toNat + 1 := by
    rw [← hid, h.held_eq hmem] at hfit
    exact Word.count_up hfit
  apply h.recount hexcl (hup ▸ Nat.succ_pos _)
  · intro k hk
    rcases List.mem_cons.1 hk with rfl | hk
    · exact ⟨hmem, hmode.trans hexcl.symm⟩
    · exact ⟨h.listed k hk, h.flag k hk⟩
  · intro x hx
    rw [owners_cons, ← h.owners x hx]
    by_cases hxb : x = bd
    · rw [if_pos hxb, if_pos hxb, hxb, hup]
    · rw [if_neg hxb, if_neg hxb, Nat.add_zero]
  · intro i
    rw [held_cons bd mode.excl _ (fun k _ => setRefcount_id _ _ _ _), setRefcount_id, hid]
    show countUp s.opens id i = _
    rw [countUp_apply, h.counts i, Nat.add_assoc]

/-- A device is opened. -/
theorem opened (h : Shared s l) {bd dev : Nat} {info : BlkfrontInfo} {p : Mempool}
    (hfresh : env.reqpool ∉ s.devs.pools) (hfind : findBlkdev s.devs id = none) (hbd : bd ∉ s.devs.blocks)
    (hdev : dev ∉ s.devs.blkfronts) (hfree : freeMempool p = .ok ()) :
    Shared { s with
      devs := linkBlkdev { s.devs with
        blocks := insert bd s.devs.blocks
        pools := insert env.reqpool s.devs.pools
        mempool := Function.update s.devs.mempool env.reqpool p
        blkfronts := insert dev s.devs.blkfronts
        bd := Function.update s.devs.bd bd ⟨dev, info, env.reqpool, id, env.fd, mode.excl, 1⟩ } bd
      handles := ⟨bd, mode.excl⟩ :: s.handles, opens := countUp s.opens id } (bd :: l) := by
  have hnot : bd ∉ l := fun hm => hbd ((h.blocks bd).2 hm)
  -- the record of the new device, and those of the others
  have hnew : Function.update s.devs.bd bd ⟨dev, info, env.reqpool, id, env.fd, mode.excl, 1⟩ bd =
      ⟨dev, info, env.reqpool, id, env.fd, mode.excl, 1⟩ := Function.update_self ..
  have hold : ∀ x ∈ l, Function.update s.devs.bd bd ⟨dev, info, env.reqpool, id, env.fd, mode.excl, 1⟩ x =
      s.devs.bd x := fun x hx => Function.update_of_ne (ne_of_mem_of_not_mem hx hnot) ..
  have hlisted : ∀ k ∈ s.handles, k.bd ≠ bd := fun k hk => ne_of_mem_of_not_mem (h.listed k hk) hnot
  have hzero : s.owners bd = 0 := by
    apply List.countP_eq_zero.2
    exact fun k hk he => hlisted k hk (beq_iff_eq.1 he)
  generalize hf : Function.update s.devs.bd bd ⟨dev, info, env.reqpool, id, env.fd, mode.excl, 1⟩ = f
    at hnew hold
  refine ⟨OnList.link h.chain hnot, ?_, ?_, ?_, ?_, ?_, ?_, ?_, ?_, ?_, ?_, ?_⟩
  · intro x
    show x ∈ insert bd s.devs.blocks ↔ _
    rw [Finset.mem_insert, List.mem_cons, h.blocks]
  · have hone := (h.pools.congr fun x hx => congrArg Blkdev.reqpool (hold x hx)).cons (x := bd)
      (show (f bd).reqpool ∉ _ by rw [hnew]; exact hfresh)
    rw [hnew] at hone
    exact hone
  · have hone := (h.blkfronts.congr fun x hx => congrArg Blkdev.dev (hold x hx)).cons (x := bd)
      (show (f bd).dev ∉ _ by rw [hnew]; exact hdev)
    rw [hnew] at hone
    exact hone
  · intro x hx
    show freeMempool (Function.update s.devs.mempool env.reqpool p (f x).reqpool) = _
    rcases List.mem_cons.1 hx with rfl | hx
    · rw [hnew, Function.update_self]
      exact hfree
    · have hpool : (s.devs.bd x).reqpool ∈ s.devs.pools := (h.pools.all _).2 (List.mem_map_of_mem hx)
      rw [hold x hx, Function.update_of_ne (ne_of_mem_of_not_mem hpool hfresh)]
      exact h.full x hx
  · show ((f bd).id :: l.map fun x => (f x).id).Nodup
    have hmap : (l.map fun x => (f x).id) = l.map fun x => (s.devs.bd x).id :=
      List.map_congr_left fun x hx => by rw [hold x hx]
    rw [hnew, hmap]
    refine List.nodup_cons.2 ⟨fun hm => ?_, h.ids⟩
    rcases List.mem_map.1 hm with ⟨x, hx, he⟩
    exact h.find_none hfind x hx he
  · intro k hk
    rcases List.mem_cons.1 hk with rfl | hk
    · exact List.mem_cons_self
    · exact List.mem_cons_of_mem _ (h.listed k hk)
  · intro k hk
    show k.excl = (f k.bd).exclusive
    rcases List.mem_cons.1 hk with rfl | hk
    · rw [hnew]
    · rw [hold _ (h.listed k hk)]
      exact h.flag k hk
  · intro x hx
    show 0 < (f x).refcount.toNat
    rcases List.mem_cons.1 hx with rfl | hx
    · rw [hnew]
      exact Nat.one_pos
    · rw [hold x hx]
      exact h.positive x hx
  · intro x hx
    rw [owners_cons]
    show (f x).refcount.toNat = _
    rcases List.mem_cons.1 hx with rfl | hx
    · rw [hnew, hzero, if_pos rfl]
      rfl
    · rw [hold x hx, if_neg (ne_of_mem_of_not_mem hx hnot), Nat.add_zero]
      exact h.owners x hx
  · intro x hx
    show (f x).exclusive = true → (f x).refcount = 1
    rcases List.mem_cons.1 hx with rfl | hx
    · rw [hnew]
      exact fun _ => rfl
    · rw [hold x hx]
      exact h.exclusive x hx
  · intro i
    rw [held_cons bd mode.excl _ fun k hk => congrArg Blkdev.id (hold _ (h.listed k hk))]
    show countUp s.opens id i = s.closes i + (s.held i + if i = (f bd).id then 1 else 0)
    rw [hnew, countUp_apply, h.counts i, Nat.add_assoc]

/-- The counts without one of the handles. -/
theorem held_erase {k : BlkdevHandle} (hk : k ∈ s.handles) (devs : BlkdevList)
    (hid : ∀ k ∈ s.handles, (devs.bd k.bd).id = s.idOf k) (i : UInt32) (opens closes : UInt32 → Nat) :
    s.held i = DeviceSharing.held ⟨devs, s.handles.erase k, opens, closes⟩ i +
      if i = s.idOf k then 1 else 0 := by
  rw [held_congr devs hid, (List.perm_cons_erase hk).countP_eq, ← hid k hk]
  exact countP_key_cons (fun k : BlkdevHandle => (devs.bd k.bd).id) k (s.handles.erase k) i

theorem owners_erase {k : BlkdevHandle} (hk : k ∈ s.handles) (devs : BlkdevList) (x : Nat)
    (opens closes : UInt32 → Nat) : s.owners x =
      DeviceSharing.owners ⟨devs, s.handles.erase k, opens, closes⟩ x + if x = k.bd then 1 else 0 := by
  unfold DeviceSharing.owners
  rw [(List.perm_cons_erase hk).countP_eq]
  exact countP_key_cons BlkdevHandle.bd k (s.handles.erase k) x

/-- One owner of several leaves. -/
theorem leave (h : Shared s l) {k : BlkdevHandle} (hk : k ∈ s.handles)
    (hmore : 1 < (s.devs.bd k.bd).refcount.toNat) :
    Shared { s with
      devs := setRefcount s.devs k.bd ((s.devs.bd k.bd).refcount - 1)
      handles := s.handles.erase k, closes := countUp s.closes (s.idOf k) } l := by
  have hexcl : (s.devs.bd k.bd).exclusive = false := by
    apply Bool.eq_false_of_not_eq_true
    intro hex
    have hone := Word.count_eq_one.1 (h.exclusive _ (h.listed k hk) hex)
    omega
  have hdown := Word.count_down (c := (s.devs.bd k.bd).refcount) (by omega)
  apply h.recount hexcl (by omega)
  · exact fun j hj => ⟨h.listed j (List.mem_of_mem_erase hj), h.flag j (List.mem_of_mem_erase hj)⟩
  · intro x hx
    have hown := h.owners x hx
    rw [owners_erase hk (setRefcount s.devs k.bd ((s.devs.bd k.bd).refcount - 1)) x s.opens
      (countUp s.closes (s.idOf k))] at hown
    by_cases hxb : x = k.bd
    · subst hxb
      rw [if_pos rfl] at hown ⊢
      omega
    · rw [if_neg hxb, Nat.add_zero] at hown
      rw [if_neg hxb, hown]
  · intro i
    have hcount := h.counts i
    rw [held_erase hk (setRefcount s.devs k.bd ((s.devs.bd k.bd).refcount - 1))
      (fun j _ => setRefcount_id _ _ _ _) i s.opens (countUp s.closes (s.idOf k))] at hcount
    show s.opens i = countUp s.closes (s.idOf k) i + _
    rw [countUp_apply]
    omega

/-- The last owner leaves, and the device with it. -/
theorem close (h : Shared s l) {k : BlkdevHandle} (hk : k ∈ s.handles)
    (hlast : (s.devs.bd k.bd).refcount = 1) :
    Shared { s with
      devs := { s.devs with
        links := (unlinkBlkdev s.devs k.bd).links
        openBdList := (unlinkBlkdev s.devs k.bd).openBdList
        bd := (setRefcount s.devs k.bd 0).bd
        blkfronts := s.devs.blkfronts.erase (s.devs.bd k.bd).dev
        pools := s.devs.pools.erase (s.devs.bd k.bd).reqpool
        blocks := s.devs.blocks.erase k.bd }
      handles := s.handles.erase k, closes := countUp s.closes (s.idOf k) } (l.erase k.bd) := by
  have hmem := h.listed k hk
  have hsub : ∀ x ∈ l.erase k.bd, x ∈ l ∧ x ≠ k.bd := fun x hx =>
    have hx' := (List.Nodup.mem_erase_iff h.chain.nodup).1 hx
    ⟨hx'.2, hx'.1⟩
  have hown : ∀ x, s.owners x = (s.handles.erase k).countP (fun j => j.bd == x) + if x = k.bd then 1 else 0 :=
    fun x => owners_erase hk s.devs x s.opens s.closes
  refine ⟨h.chain.unlink hmem, ?_, ?_, ?_, ?_, ?_, ?_, ?_, ?_, ?_, ?_, ?_⟩
  · intro x
    show x ∈ s.devs.blocks.erase k.bd ↔ _
    rw [Finset.mem_erase, List.Nodup.mem_erase_iff h.chain.nodup, h.blocks]
  · exact (h.pools.erase hmem).congr fun x _ => setRefcount_reqpool _ _ _ _
  · exact (h.blkfronts.erase hmem).congr fun x _ => setRefcount_dev _ _ _ _
  · intro x hx
    show freeMempool (s.devs.mempool ((setRefcount s.devs k.bd 0).bd x).reqpool) = _
    rw [setRefcount_reqpool]
    exact h.full x (hsub x hx).1
  · show ((l.erase k.bd).map fun x => ((setRefcount s.devs k.bd 0).bd x).id).Nodup
    simp only [setRefcount_id]
    exact h.ids.sublist (List.erase_sublist.map _)
  · intro j hj
    refine (List.Nodup.mem_erase_iff h.chain.nodup).2 ⟨fun he => ?_, h.listed j (List.mem_of_mem_erase hj)⟩
    -- another handle of the device would be a second owner
    have htwo := hown k.bd
    rw [← h.owners _ hmem, Word.count_eq_one.1 hlast, if_pos rfl] at htwo
    have hzero : (s.handles.erase k).countP (fun j => j.bd == k.bd) = 0 := by omega
    exact List.countP_eq_zero.1 hzero j hj (beq_iff_eq.2 he)
  · intro j hj
    show j.excl = ((setRefcount s.devs k.bd 0).bd j.bd).exclusive
    rw [setRefcount_exclusive]
    exact h.flag j (List.mem_of_mem_erase hj)
  · intro x hx
    show 0 < ((setRefcount s.devs k.bd 0).bd x).refcount.toNat
    rw [setRefcount_refcount, if_neg (hsub x hx).2]
    exact h.positive x (hsub x hx).1
  · intro x hx
    show ((setRefcount s.devs k.bd 0).bd x).refcount.toNat = (s.handles.erase k).countP fun j => j.bd == x
    rw [setRefcount_refcount, if_neg (hsub x hx).2, h.owners x (hsub x hx).1, hown x, if_neg (hsub x hx).2,
      Nat.add_zero]
  · intro x hx
    show ((setRefcount s.devs k.bd 0).bd x).exclusive = true → ((setRefcount s.devs k.bd 0).bd x).refcount = 1
    rw [setRefcount_exclusive, setRefcount_refcount, if_neg (hsub x hx).2]
    exact h.exclusive x (hsub x hx).1
  · intro i
    have hcount := h.counts i
    rw [held_erase hk (setRefcount s.devs k.bd 0) (fun j _ => setRefcount_id _ _ _ _) i s.opens
      (countUp s.closes (s.idOf k))] at hcount
    show s.opens i = countUp s.closes (s.idOf k) i + _
    rw [countUp_apply]
    have hsame : DeviceSharing.held ⟨setRefcount s.devs k.bd 0, s.handles.erase k, s.opens,
        countUp s.closes (s.idOf k)⟩ i =
        (s.handles.erase k).countP fun j => ((setRefcount s.devs k.bd 0).bd j.bd).id == i := rfl
    rw [hsame] at hcount
    show _ = _ + (s.handles.erase k).countP fun j => ((setRefcount s.devs k.bd 0).bd j.bd).id == i
    omega

/-- No call fails to return, and a step with counts that fit keeps it. -/
theorem step (h : Shared s l) (h1 : 1 ≤ conf.maxRequests.toNat) (h2 : conf.maxRequests.toNat < 2 ^ 30)
    {e : SharingEvent} (he : sharingEnabled s e) :
    ∃ t, sharingNext conf s e = .ok t ∧ (CountFits conf s e → ∃ l', Shared t l') := by
  cases e with
  | openBlkdev id mode env =>
      rcases @openBlkdev_outcome conf s.devs id mode env h1 h2 he with ⟨r, hr, hout⟩
      show ∃ t, (openBlkdev conf s.devs id mode env >>= _) = .ok t ∧ _
      cases hout with
      | failed bd mempool errno hbd hpool =>
          rw [hr]
          exact ⟨_, rfl, fun _ => ⟨l, h.failed hbd hpool⟩⟩
      | shared bd hfind hmode hexcl =>
          have hsucc : openSucceeds conf s.devs id mode env = true := by
            unfold openSucceeds
            rw [hr]
            rfl
          rw [hr]
          exact ⟨_, rfl, fun hfit => ⟨l, h.share hfind hmode hexcl (hfit hsucc)⟩⟩
      | opened bd dev info p hfind hbd hdev hfree =>
          rw [hr]
          exact ⟨_, rfl, fun _ => ⟨bd :: l, h.opened he.reqpool hfind hbd hdev hfree⟩⟩
  | closeBlkdev k =>
      have hmem := h.listed k he
      show ∃ t, (closeBlkdev s.devs k.bd >>= _) = .ok t ∧ _
      by_cases hlast : (s.devs.bd k.bd).refcount = 1
      · rw [closeBlkdev_last hlast (h.full _ hmem)]
        exact ⟨_, rfl, fun _ => ⟨l.erase k.bd, h.close he hlast⟩⟩
      · have hpos := h.positive _ hmem
        have hmore : 1 < (s.devs.bd k.bd).refcount.toNat := by
          have hne := mt Word.count_eq_one.2 hlast
          omega
        rw [closeBlkdev_more hmore]
        exact ⟨_, rfl, fun _ => ⟨l, h.leave he hmore⟩⟩

end Shared

/-! ## Device sharing -/

/-- What holds between two calls, for the devices `l` on the list: one for each number, exactly those in
memory, with as many owners as their count says. -/
structure SharingOk (s : DeviceSharing) (l : List Nat) : Prop where
  chain : DList.Traverses s.devs.links.next s.devs.openBdList l
  once : (l.map fun x => (s.devs.bd x).id).Nodup
  counted : ∀ x, x ∈ l ↔ x ∈ s.devs.blocks ∧ 0 < (s.devs.bd x).refcount
  listed : ∀ id, (∃ x ∈ l, (s.devs.bd x).id = id) ↔ s.closes id < s.opens id
  refcount : ∀ x ∈ l, (s.devs.bd x).refcount.toNat = s.opens (s.devs.bd x).id - s.closes (s.devs.bd x).id
  closes : ∀ id, s.closes id ≤ s.opens id
  exclusive : ∀ k ∈ s.handles, k.bd ∈ l ∧ (k.excl = true → (s.devs.bd k.bd).refcount = 1)

/-- A failed call leaves the list, the devices on it and what is allocated. -/
structure Unchanged (s t : BlkdevList) : Prop where
  list : t.openBdList = s.openBdList ∧ t.links = s.links
  devices : ∀ x ∈ s.blocks, t.bd x = s.bd x
  allocated : t.blocks = s.blocks ∧ t.pools = s.pools ∧ t.blkfronts = s.blkfronts
  mempools : ∀ p ∈ s.pools, t.mempool p = s.mempool p

theorem Shared.ok {s : DeviceSharing} {l : List Nat} (h : Shared s l) : SharingOk s l := by
  refine ⟨h.chain.traverses.1, h.ids, fun x => ?_, fun id => ?_, fun x hx => ?_, fun id => ?_, fun k hk => ?_⟩
  · rw [h.blocks]
    exact ⟨fun hx => ⟨hx, Word.count_pos.2 (h.positive x hx)⟩, fun hx => hx.1⟩
  · have hcount := h.counts id
    constructor
    · rintro ⟨x, hx, rfl⟩
      have hheld := h.held_eq hx
      have hpos := h.positive x hx
      omega
    · intro hlt
      have hpos : 0 < s.held id := by omega
      rcases List.countP_pos_iff.1 hpos with ⟨k, hk, he⟩
      exact ⟨k.bd, h.listed k hk, beq_iff_eq.1 he⟩
  · rw [h.counts, h.held_eq hx, Nat.add_sub_cancel_left]
  · rw [h.counts]
    exact Nat.le_add_right _ _
  · refine ⟨h.listed k hk, fun hex => h.exclusive _ (h.listed k hk) ?_⟩
    rw [← h.flag k hk]
    exact hex

/-- The devices are shared as they should be in every run in which no device gets `2 ^ 32` handles: the list
and its counts agree with the calls, a call always returns, one that fails changes nothing, and none succeeds
on a device that an exclusive owner has, or with `O_EXCL` on one that anyone has. -/
theorem device_sharing {conf : BlkdevConf} (h1 : 1 ≤ conf.maxRequests.toNat)
    (h2 : conf.maxRequests.toNat < 2 ^ 30) {links : Links Nat} {bd : Nat → Blkdev} {mempool : Nat → Mempool}
    {es : List SharingEvent} {s : DeviceSharing}
    (hrun : ((deviceSharing conf).restrict (CountFits conf)).Run (noDevices links bd mempool) es s) :
    (∃ l, SharingOk s l) ∧ (∀ f, ¬ (deviceSharing conf).Faults s f) ∧
    ∀ id mode env r t, env.Fresh s.devs → openBlkdev conf s.devs id mode env = .ok (r, t) →
      (r = none → Unchanged s.devs t) ∧
      (∀ b, r = some b → ∀ k ∈ s.handles, s.idOf k = id → k.excl = false ∧ mode.excl = false) := by
  have hshared : ∃ l, Shared s l := by
    refine hrun.invariant (I := fun s => ∃ l, Shared s l) ?_ ⟨[], shared_none links bd mempool⟩
    rintro u e v ⟨l, hl⟩ hs
    rcases Machine.restrict_step.1 hs with ⟨⟨he, hn⟩, hfit⟩
    rcases hl.step h1 h2 he with ⟨v', hv', hl'⟩
    obtain rfl := Except.ok.inj (hn.symm.trans hv')
    exact hl' hfit
  rcases hshared with ⟨l, hl⟩
  refine ⟨⟨l, hl.ok⟩, ?_, ?_⟩
  · rintro f ⟨e, he, hf⟩
    rcases hl.step h1 h2 he with ⟨v, hv, -⟩
    cases hf.symm.trans hv
  · intro id mode env r t hfresh hopen
    rcases @openBlkdev_outcome conf s.devs id mode env h1 h2 hfresh with ⟨r', hr', hout⟩
    obtain rfl := Except.ok.inj (hr'.symm.trans hopen)
    cases hout with
    | failed bd mempool errno hbd hpool =>
        exact ⟨fun _ => ⟨⟨rfl, rfl⟩, hbd, ⟨rfl, rfl, rfl⟩, hpool⟩, fun b hb => (by cases hb)⟩
    | shared bd hfind hmode hexcl =>
        refine ⟨fun hr => (by cases hr), fun b _ k hk hid => ⟨?_, hmode⟩⟩
        rcases hl.find_some hfind with ⟨hmem, hbd⟩
        have hsame : k.bd = bd := hl.unique (hl.listed k hk) hmem (hid.trans hbd.symm)
        rw [hl.flag k hk, hsame]
        exact hexcl
    | opened bd dev info p hfind hbd hdev hfree =>
        refine ⟨fun hr => (by cases hr), fun b _ k hk hid => ?_⟩
        exact absurd hid (hl.find_none hfind _ (hl.listed k hk))

/-- A device with 31 requests, opened at address 1. -/
def oneDevice : OpenEnv := ⟨some 1, 2, threeMem, some (3, smallSectors), 0⟩

/-- Memory with nothing in it yet. -/
def emptyMemory : DeviceSharing :=
  noDevices ⟨fun _ => none, fun _ => none⟩ (fun _ => ⟨0, smallSectors, 0, 0, 0, false, 0⟩)
    fun _ => ⟨⟨0, 0, 0, 0, fun _ => 0⟩, 0, 0, 0, 0, 0, fun _ => ⟨0, 0, 0, 0, 0⟩⟩

/-- The device is opened exclusively, and then someone else asks for it. -/
def exclusiveThenBusy : List SharingEvent :=
  [.openBlkdev 51712 ⟨false, false, true⟩ oneDevice,
    .openBlkdev 51712 ⟨false, false, false⟩ ⟨none, 4, threeMem, none, 0⟩]

/-- The second call gets `EBUSY`. -/
theorem device_sharing_exclusive : ∃ s, ((deviceSharing ⟨true, 31, 112⟩).restrict
      (CountFits ⟨true, 31, 112⟩)).Run emptyMemory exclusiveThenBusy s ∧
    s.handles = [⟨1, true⟩] ∧ s.devs.errno = ebusy ∧
    (∃ l, SharingOk s l) ∧ (∀ f, ¬ (deviceSharing ⟨true, 31, 112⟩).Faults s f) ∧
    ∀ id mode env r t, env.Fresh s.devs → openBlkdev ⟨true, 31, 112⟩ s.devs id mode env = .ok (r, t) →
      (r = none → Unchanged s.devs t) ∧
      (∀ b, r = some b → ∀ k ∈ s.handles, s.idOf k = id → k.excl = false ∧ mode.excl = false) := by
  have hexec : (((deviceSharing ⟨true, 31, 112⟩).restrict (CountFits ⟨true, 31, 112⟩)).exec emptyMemory
      exclusiveThenBusy).any
      (fun s => s.handles = [⟨1, true⟩] ∧ s.devs.errno = ebusy) = true := by decide +kernel
  rcases Machine.Run.of_exec_any hexec with ⟨s, hrun, hs⟩
  rcases of_decide_eq_true hs with ⟨hhandles, herrno⟩
  exact ⟨s, hrun, hhandles, herrno, device_sharing (by decide) (by decide) hrun⟩

/-! ### More owners than the counter counts -/

/-- Someone opens the device without `O_EXCL`. -/
def openAgain : SharingEvent := .openBlkdev 51712 ⟨false, false, false⟩ ⟨none, 4, threeMem, none, 0⟩

/-- The device at address 1 is the one that is open, with `n` owners so far and none that left. -/
structure OpenedTimes (s : DeviceSharing) (n : Nat) : Prop where
  first : s.devs.openBdList = some 1
  find : findBlkdev s.devs 51712 = some 1
  info : (s.devs.bd 1).info = smallSectors
  shared : (s.devs.bd 1).exclusive = false
  pools : s.devs.pools = {2}
  refcount : (s.devs.bd 1).refcount = UInt32.ofNat n
  opens : s.opens (s.devs.bd 1).id = n
  closes : s.closes (s.devs.bd 1).id = 0

/-- One more owner. -/
theorem OpenedTimes.again {s : DeviceSharing} {n : Nat} (h : OpenedTimes s n) :
    ∃ t, (deviceSharing ⟨true, 31, 112⟩).Step s openAgain t ∧ OpenedTimes t (n + 1) := by
  have hid : (s.devs.bd 1).id = 51712 := beq_iff_eq.1 (List.find?_some h.find :)
  have hfresh : OpenEnv.Fresh ⟨none, 4, threeMem, none, 0⟩ s.devs := by
    refine ⟨fun b hb => (by cases hb), ?_, fun d info hd => (by cases hd)⟩
    rw [h.pools]
    decide
  have hopen : openBlkdev ⟨true, 31, 112⟩ s.devs 51712 ⟨false, false, false⟩ ⟨none, 4, threeMem, none, 0⟩ =
      .ok (some 1, setRefcount s.devs 1 ((s.devs.bd 1).refcount + 1)) := by
    unfold openBlkdev
    rw [h.find]
    simp only [h.shared, h.info]
    rfl
  refine ⟨{ s with
    devs := setRefcount s.devs 1 ((s.devs.bd 1).refcount + 1)
    handles := ⟨1, false⟩ :: s.handles, opens := countUp s.opens 51712 }, ⟨hfresh, ?_⟩, ?_⟩
  · show (openBlkdev _ s.devs 51712 _ _ >>= _) = _
    rw [hopen]
    rfl
  · refine ⟨h.first, ?_, ?_, ?_, h.pools, ?_, ?_, ?_⟩
    · have hfind := h.find
      unfold findBlkdev at hfind ⊢
      simp only [setRefcount_id]
      exact hfind
    · exact (setRefcount_apply s.devs 1 _ 1 (·.info) fun _ _ => rfl).trans h.info
    · rw [setRefcount_exclusive]
      exact h.shared
    · rw [setRefcount_refcount, if_pos rfl, h.refcount, UInt32.ofNat_add]
      rfl
    · rw [setRefcount_id, hid]
      show countUp s.opens 51712 51712 = _
      rw [countUp_apply, if_pos rfl, ← hid, h.opens]
    · rw [setRefcount_id]
      exact h.closes

/-- Any number of owners. -/
theorem openedTimes_run (n : Nat) : ∃ es s, (deviceSharing ⟨true, 31, 112⟩).Run emptyMemory es s ∧
    OpenedTimes s (n + 1) := by
  induction n with
  | zero =>
      have hexec : ((deviceSharing ⟨true, 31, 112⟩).exec emptyMemory
          [.openBlkdev 51712 ⟨false, false, false⟩ oneDevice]).any (fun s =>
            s.devs.openBdList = some 1 ∧ findBlkdev s.devs 51712 = some 1 ∧
              (s.devs.bd 1).info = smallSectors ∧ (s.devs.bd 1).exclusive = false ∧ s.devs.pools = {2} ∧
              (s.devs.bd 1).refcount = 1 ∧ s.opens (s.devs.bd 1).id = 1 ∧ s.closes (s.devs.bd 1).id = 0) =
          true := by decide +kernel
      rcases Machine.Run.of_exec_any hexec with ⟨s, hrun, hs⟩
      rcases of_decide_eq_true hs with ⟨h1, h2, h3, h4, h5, h6, h7, h8⟩
      exact ⟨_, s, hrun, h1, h2, h3, h4, h5, h6, h7, h8⟩
  | succ n ih =>
      rcases ih with ⟨es, s, hrun, hs⟩
      rcases hs.again with ⟨t, hstep, ht⟩
      exact ⟨es ++ [openAgain], t, hrun.snoc hstep, ht⟩

/-- With `2 ^ 32` owners the counter is at zero: the device is on the list as one that nobody has. -/
theorem device_sharing_wraps : ∃ es s, (deviceSharing ⟨true, 31, 112⟩).Run emptyMemory es s ∧
    (s.devs.bd 1).refcount = 0 ∧ s.opens (s.devs.bd 1).id = 2 ^ 32 ∧ ∀ l, ¬ SharingOk s l := by
  rcases openedTimes_run (2 ^ 32 - 1) with ⟨es, s, hrun, hs⟩
  have hzero : (s.devs.bd 1).refcount = 0 := hs.refcount.trans (by decide)
  refine ⟨es, s, hrun, hzero, hs.opens, fun l hl => ?_⟩
  -- the list begins with the device
  have hmem : 1 ∈ l := by
    have hchain := hl.chain
    rw [hs.first] at hchain
    cases l with
    | nil => cases hchain
    | cons x l =>
        obtain rfl : x = 1 := hchain.1.symm
        exact List.mem_cons_self
  have hpos := ((hl.counted 1).1 hmem).2
  rw [hzero] at hpos
  exact absurd hpos (by decide)

end Minipython.Minios
