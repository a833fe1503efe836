/-
# Minipython.Minios.Mempool — pools of objects (mempool.h, mempool.c)

A pool hands out a fixed number of objects and keeps the free ones in a ring of references. An object goes
by its number here. The functions that a pool calls on its objects are left out: they must not change the
fields of an object, which is all that is modelled of it.

`pool` runs a pool under a user that puts back only what it has picked, once each, and may change the
fields of a picked object in between.

`alloc_spec` says what a new pool is: its ring holds the objects in the order of their numbers, and none of
the calls of `ring_enqueue` that put them there fails. The ring has a slot more than there are objects at
least, since its size is the power of two above their number. From there on the objects in the ring and the
picked ones are a permutation of all objects (`Conserved`), which each call keeps: a pick fails exactly if
the ring is too short, and a put always finds room. `pool_conserved` carries this over all runs.

The pools are those of at least one object and less than `2 ^ 30`. The memory of a pool and of its ring may
be refused, and there is no pool then; `MempoolLayout` is about where in it the objects lie.
-/
import Mathlib.Data.List.Count
import Mathlib.Data.List.Nodup
import Mathlib.Data.List.Range
import Minipython.Lib.Machine
import Minipython.Minios.Ring

namespace Minipython.Minios

open Minipython.Lib
open Minipython.Shfs (Fault)

/-! ## Objects and pools -/

/-- `struct mempool_obj`. -/
structure MempoolObj where
  base : UInt64
  data : UInt64
  lhr : UInt64
  ltr : UInt64
  len : UInt64
  deriving DecidableEq, Repr

/-- `struct mempool`, with the memory of its objects. -/
structure Mempool where
  freeObjs : Ring Nat
  objSize : UInt64
  objHeadroom : UInt64
  objTailroom : UInt64
  nbObjs : UInt32
  objDataArea : UInt64
  obj : Nat → MempoolObj

/-- The loop of `log2` with `fuel` turns at most: 32 shifts leave nothing of a 32-bit number. -/
def log2Loop : Nat → UInt32 → UInt32 → UInt32
  | 0, _, i => i
  | fuel + 1, v, i => if v = 0 then i else log2Loop fuel (v >>> 1) (i + 1)

/-- `log2`. -/
def log2 (v : UInt32) : UInt32 := log2Loop 32 v 0 - 1

/-- `align_up`. -/
def alignUp (size align : UInt64) : UInt64 := (size + align - 1) &&& ~~~(align - 1)

/-- `sizeof(struct mempool)` and `sizeof(struct mempool_obj)`. -/
def sizeofMempool : UInt64 := 88
def sizeofMempoolObj : UInt64 := 56

/-- `MIN_ALIGN`. -/
def minAlign : UInt64 := 8

/-- The arguments of `alloc_enhanced_mempool`. -/
structure MempoolArgs where
  nbObjs : UInt32
  objSize : UInt64
  objDataAlign : UInt64
  objHeadroom : UInt64
  objTailroom : UInt64
  objPrivateLen : UInt64
  sepObjData : Bool

/-- What the heap answers: the pool, the data area of a split pool, and the ring. -/
structure MempoolMem where
  pool : Option UInt64
  dataArea : Option UInt64
  ring : Option (UInt32 → Nat)
  obj : Nat → MempoolObj

/-- `mempool_reset_obj`. -/
def mempoolResetObj (p : Mempool) (obj : MempoolObj) : MempoolObj :=
  { obj with
    len := p.objSize, lhr := p.objHeadroom, ltr := p.objTailroom, data := obj.base + p.objHeadroom }

/-- One turn of the loop of `alloc_enhanced_mempool` that initializes the objects. -/
def initObj (base : Nat → UInt64) (p : Mempool) (i : Nat) : Mempool :=
  { p with
    obj := Function.update p.obj i (mempoolResetObj p { p.obj i with base := base i })
    freeObjs := (ringEnqueue p.freeObjs i).2 }

/-- The sizes that `alloc_enhanced_mempool` computes: headroom, tailroom, and where the data of an object
begins, given where the pool and the data area are. -/
structure MempoolLayout where
  headroom : UInt64
  tailroom : UInt64
  base : UInt64 → UInt64 → Nat → UInt64

def mempoolLayout (a : MempoolArgs) : MempoolLayout :=
  let align := max a.objDataAlign minAlign
  let pSize := alignUp sizeofMempoolObj minAlign + a.objPrivateLen
  if a.sepObjData then
    let headroom := alignUp a.objHeadroom align
    let oSize := alignUp (headroom + a.objSize + a.objTailroom) align
    { headroom := headroom
      tailroom := oSize - headroom - a.objSize
      base := fun _ area i => area + UInt64.ofNat i * alignUp oSize align }
  else
    let headroom := alignUp (pSize + a.objHeadroom) align - pSize
    let oSize := alignUp (pSize + headroom + a.objSize + a.objTailroom) align
    { headroom := headroom
      tailroom := oSize - headroom - a.objSize - pSize
      base := fun pool _ i =>
        pool + alignUp sizeofMempool align + UInt64.ofNat i * alignUp oSize align + pSize }

/-- `alloc_enhanced_mempool`. The test behind the allocation of the data area is of the pool again, so a
data area at address 0 goes unnoticed. -/
def allocEnhancedMempool (a : MempoolArgs) (m : MempoolMem) : Except Fault (Option Mempool) :=
  if a.objDataAlign ≠ 0 ∧ ¬(a.objDataAlign &&& (a.objDataAlign - 1) = 0) then .error .assert
  else
    match m.pool with
    | none => .ok none
    | some pool => do
        let area := if a.sepObjData then m.dataArea.getD 0 else 0
        match ← allocRing ((1 : UInt32) <<< (log2 a.nbObjs + 1)) m.ring with
        | none => return none
        | some ring =>
            let l := mempoolLayout a
            let p : Mempool :=
              { freeObjs := ring, objSize := a.objSize, objHeadroom := l.headroom
                objTailroom := l.tailroom, nbObjs := a.nbObjs, objDataArea := area, obj := m.obj }
            return some ((List.range a.nbObjs.toNat).foldl (initObj (l.base pool area)) p)

/-- `mempool_pick`. -/
def mempoolPick (p : Mempool) : Option Nat × Mempool :=
  match ringDequeue p.freeObjs with
  | (none, ring) => (none, { p with freeObjs := ring })
  | (some o, ring) =>
      (some o, { p with
        freeObjs := ring, obj := Function.update p.obj o (mempoolResetObj p (p.obj o)) })

/-- The loop of `mempool_pick_multiple` over the objects that are left. -/
def resetObjs (p : Mempool) : List Nat → Mempool
  | [] => p
  | o :: os => resetObjs { p with obj := Function.update p.obj o (mempoolResetObj p (p.obj o)) } os

/-- `mempool_pick_multiple`: `none` is the failure, for which it returns -1. -/
def mempoolPickMultiple (p : Mempool) (count : Nat) : Option (List Nat) × Mempool :=
  match ringDequeueMultiple p.freeObjs count with
  | (none, ring) => (none, { p with freeObjs := ring })
  | (some os, ring) => (some os, resetObjs { p with freeObjs := ring } os)

/-- `mempool_put`. -/
def mempoolPut (p : Mempool) (o : Nat) : Mempool := { p with freeObjs := (ringEnqueue p.freeObjs o).2 }

/-- `mempool_put_multiple`. -/
def mempoolPutMultiple (p : Mempool) (os : List Nat) : Mempool :=
  if os.length = 0 then p else { p with freeObjs := (ringEnqueueMultiple p.freeObjs os).2 }

/-- `alloc_simple_mempool`. -/
def allocSimpleMempool (nbObjs : UInt32) (objSize : UInt64) (m : MempoolMem) :
    Except Fault (Option Mempool) :=
  allocEnhancedMempool ⟨nbObjs, objSize, 0, 0, 0, 0, false⟩ m

/-- `mempool_free_count`. -/
def mempoolFreeCount (p : Mempool) : UInt32 := ringCount p.freeObjs

/-- `free_mempool` of a pool. -/
def freeMempool (p : Mempool) : Except Fault Unit :=
  if ringCount p.freeObjs ≠ p.nbObjs then .error .bugOn else .ok ()

/-! ## A pool and its user -/

/-- A pool and the objects that its user has picked and not put back. -/
structure Pool where
  mempool : Mempool
  picked : List Nat

inductive PoolEvent where
  | pick
  | pickMultiple (count : Nat)
  | put (o : Nat)
  | putMultiple (os : List Nat)
  /-- the user changes the fields of a picked object, say to prepend to its data -/
  | change (o : Nat) (data lhr ltr len : UInt64)

/-- Only picked objects are put back, each once. -/
def poolEnabled (s : Pool) : PoolEvent → Prop
  | .pick => True
  | .pickMultiple _ => True
  | .put o => o ∈ s.picked
  | .putMultiple os => os.Nodup ∧ ∀ o ∈ os, o ∈ s.picked
  | .change o _ _ _ _ => o ∈ s.picked

def poolNext (s : Pool) : PoolEvent → Except Fault Pool
  | .pick =>
      let (o, p) := mempoolPick s.mempool
      .ok ⟨p, s.picked ++ o.toList⟩
  | .pickMultiple count =>
      let (os, p) := mempoolPickMultiple s.mempool count
      .ok ⟨p, s.picked ++ os.getD []⟩
  | .put o => .ok ⟨mempoolPut s.mempool o, s.picked.erase o⟩
  | .putMultiple os => .ok ⟨mempoolPutMultiple s.mempool os, s.picked.diff os⟩
  | .change o data lhr ltr len =>
      .ok { s with mempool := { s.mempool with
        obj := Function.update s.mempool.obj o
          { s.mempool.obj o with data := data, lhr := lhr, ltr := ltr, len := len } } }

/-- A pool under its user. -/
def pool : Machine Pool PoolEvent Fault := ⟨poolEnabled, poolNext⟩

/-! ## The ring is large enough -/

theorem log2Loop_spec (fuel : Nat) {v i : UInt32} (hv : v.toNat < 2 ^ fuel)
    (hi : i.toNat + fuel < 2 ^ 32) : (log2Loop fuel v i).toNat =
      i.toNat + if v.toNat = 0 then 0 else Nat.log2 v.toNat + 1 := by
  induction fuel generalizing v i with
  | zero =>
      have h0 : v.toNat = 0 := by omega
      rw [log2Loop, if_pos h0, Nat.add_zero]
  | succ fuel ih =>
      rw [log2Loop]
      by_cases h0 : v = 0
      · rw [if_pos h0, h0]
        rfl
      · have hne : v.toNat ≠ 0 := fun h => h0 (UInt32.toNat_inj.1 h)
        have hshift : (v >>> 1).toNat = v.toNat / 2 := by
          rw [UInt32.toNat_shiftRight]
          show v.toNat >>> 1 = _
          rw [Nat.shiftRight_one]
        have hinc : (i + 1).toNat = i.toNat + 1 := by
          rw [UInt32.toNat_add, Nat.mod_eq_of_lt]
          · rfl
          · show i.toNat + 1 < 2 ^ 32
            omega
        rw [if_neg h0, ih (by rw [hshift]; omega) (by omega), hshift, hinc, if_neg hne, Nat.log2_def v.toNat]
        by_cases h2 : 2 ≤ v.toNat
        · rw [if_pos h2, if_neg (by omega)]
          omega
        · rw [if_neg h2, if_pos (by omega)]

theorem log2_spec {v : UInt32} (hv : v ≠ 0) : (log2 v).toNat = Nat.log2 v.toNat := by
  have hne : v.toNat ≠ 0 := fun h => hv (UInt32.toNat_inj.1 h)
  have hloop := log2Loop_spec 32 (v := v) (i := 0) v.toNat_lt (by decide)
  rw [if_neg hne] at hloop
  have hzero : (0 : UInt32).toNat = 0 := rfl
  rw [hzero, Nat.zero_add] at hloop
  rw [log2, UInt32.toNat_sub_of_le]
  · rw [hloop]
    rfl
  · rw [UInt32.le_iff_toNat_le, hloop]
    exact Nat.succ_le_succ (Nat.zero_le _)

/-- The ring of a pool has the power of two behind the number of its objects. -/
theorem ringSize_toNat {n : UInt32} (h1 : 1 ≤ n.toNat) (h2 : n.toNat < 2 ^ 30) :
    ((1 : UInt32) <<< (log2 n + 1)).toNat = 2 ^ (Nat.log2 n.toNat + 1) := by
  have hne : n ≠ 0 := fun h => by
    rw [h] at h1
    exact absurd h1 (by decide)
  have hlog := log2_spec hne
  have hlt : Nat.log2 n.toNat < 30 := (Nat.log2_lt (by omega)).2 h2
  have hexp : (log2 n + 1).toNat = Nat.log2 n.toNat + 1 := by
    rw [UInt32.toNat_add, hlog, Nat.mod_eq_of_lt]
    · rfl
    · show Nat.log2 n.toNat + 1 < 2 ^ 32
      omega
  rw [UInt32.toNat_shiftLeft, hexp]
  have hone : (1 : UInt32).toNat = 1 := rfl
  rw [hone, Nat.mod_eq_of_lt (by omega : Nat.log2 n.toNat + 1 < 32), Nat.shiftLeft_eq, Nat.one_mul,
    Nat.mod_eq_of_lt (Nat.pow_lt_pow_right (by decide) (by omega))]

/-- The ring of a pool has more slots than the pool has objects. -/
theorem ringSize_gt {n : UInt32} (h1 : 1 ≤ n.toNat) (h2 : n.toNat < 2 ^ 30) :
    n.toNat < ((1 : UInt32) <<< (log2 n + 1)).toNat := by
  rw [ringSize_toNat h1 h2]
  exact Nat.lt_log2_self

/-- The check of `alloc_ring` lets the ring of a pool pass. -/
theorem ringSize_ok {n : UInt32} (h1 : 1 ≤ n.toNat) (h2 : n.toNat < 2 ^ 30) :
    (1 : UInt32) <<< (log2 n + 1) > 0 ∧ powerOf2 ((1 : UInt32) <<< (log2 n + 1)) = true := by
  have hlt : Nat.log2 n.toNat < 30 := (Nat.log2_lt (by omega)).2 h2
  constructor
  · apply UInt32.lt_iff_toNat_lt.2
    have hgt := ringSize_gt h1 h2
    show 0 < _
    omega
  · exact powerOf2_iff.2 ⟨Nat.log2 n.toNat + 1, by omega, ringSize_toNat h1 h2⟩

/-! ## Allocation -/

/-- The ring after `alloc_enhanced_mempool` has put the first `i` objects into it. -/
def ringOfObjs (ring : Ring Nat) (i : Nat) : Ring Nat :=
  (List.range i).foldl (fun r o => (ringEnqueue r o).2) ring

/-- A pool but for its ring and the fields of its objects. -/
def SamePool (p p' : Mempool) : Prop :=
  p'.objSize = p.objSize ∧ p'.objHeadroom = p.objHeadroom ∧ p'.objTailroom = p.objTailroom ∧
    p'.nbObjs = p.nbObjs ∧ p'.objDataArea = p.objDataArea ∧ ∀ o, (p'.obj o).base = (p.obj o).base

theorem initObjs_ring (base : Nat → UInt64) (p : Mempool) (os : List Nat) :
    (os.foldl (initObj base) p).freeObjs = os.foldl (fun r o => (ringEnqueue r o).2) p.freeObjs ∧
      (os.foldl (initObj base) p).nbObjs = p.nbObjs := by
  induction os generalizing p with
  | nil => exact ⟨rfl, rfl⟩
  | cons o os ih => exact ih (initObj base p o)

/-- A ring with room for them takes all objects. -/
theorem ringOfObjs_holds {ring : Ring Nat} (h : Holds ring []) {n : Nat} (hn : n < ring.size.toNat) :
    Holds (ringOfObjs ring n) (List.range n) ∧ (ringOfObjs ring n).size = ring.size ∧
      ∀ i < n, (ringEnqueue (ringOfObjs ring i) i).1 = 0 := by
  induction n with
  | zero => exact ⟨h, rfl, fun i hi => absurd hi (Nat.not_lt_zero i)⟩
  | succ n ih =>
      obtain ⟨hh, hs, hall⟩ := ih (by omega)
      have hspec := ringEnqueue_spec hh n
      rw [List.length_range, hs, if_pos (by omega)] at hspec
      obtain ⟨r', he, hh', hs'⟩ := hspec
      have hnext : ringOfObjs ring (n + 1) = r' := by
        rw [ringOfObjs, List.range_succ, List.foldl_append]
        show (ringEnqueue (ringOfObjs ring n) n).2 = r'
        rw [he]
      rw [hnext, List.range_succ]
      refine ⟨hh', hs', fun i hi => ?_⟩
      by_cases hlast : i = n
      · rw [hlast, he]
      · exact hall i (by omega)

/-- What a new pool is made of: the ring is new, and the loop has run over all objects. -/
theorem alloc_cases {a : MempoolArgs} {m : MempoolMem} {p : Mempool}
    (ha : allocEnhancedMempool a m = .ok (some p)) :
    ¬(a.objDataAlign ≠ 0 ∧ ¬(a.objDataAlign &&& (a.objDataAlign - 1) = 0)) ∧
      ∃ pool ring p₀, m.pool = some pool ∧
        allocRing ((1 : UInt32) <<< (log2 a.nbObjs + 1)) m.ring = .ok (some ring) ∧
        p₀ = { freeObjs := ring, objSize := a.objSize, objHeadroom := (mempoolLayout a).headroom
               objTailroom := (mempoolLayout a).tailroom, nbObjs := a.nbObjs
               objDataArea := if a.sepObjData then m.dataArea.getD 0 else 0, obj := m.obj : Mempool } ∧
        p = (List.range a.nbObjs.toNat).foldl
          (initObj ((mempoolLayout a).base pool (if a.sepObjData then m.dataArea.getD 0 else 0))) p₀ := by
  unfold allocEnhancedMempool at ha
  split at ha
  · cases ha
  rename_i hassert
  cases hpool : m.pool with
  | none =>
      rw [hpool] at ha
      cases ha
  | some pool =>
      rw [hpool] at ha
      obtain ⟨r, hr, ha⟩ := ok_of_bind ha
      cases r with
      | none => cases ha
      | some ring =>
          exact ⟨hassert, pool, ring, _, rfl, hr, rfl, (Option.some.inj (Except.ok.inj ha)).symm⟩

/-- A new pool has all its objects in its ring. -/
theorem alloc_spec {a : MempoolArgs} {m : MempoolMem} {p : Mempool} (h1 : 1 ≤ a.nbObjs.toNat)
    (h2 : a.nbObjs.toNat < 2 ^ 30) (ha : allocEnhancedMempool a m = .ok (some p)) :
    ∃ ring, allocRing ((1 : UInt32) <<< (log2 a.nbObjs + 1)) m.ring = .ok (some ring) ∧
      p.freeObjs = ringOfObjs ring a.nbObjs.toNat ∧ p.nbObjs = a.nbObjs ∧
      Holds p.freeObjs (List.range a.nbObjs.toNat) ∧ a.nbObjs.toNat < p.freeObjs.size.toNat ∧
      ∀ i < a.nbObjs.toNat, (ringEnqueue (ringOfObjs ring i) i).1 = 0 := by
  obtain ⟨-, pool, ring, p₀, -, hr, rfl, rfl⟩ := alloc_cases ha
  obtain ⟨hempty, hsize⟩ := holds_alloc hr
  have hlt : a.nbObjs.toNat < ring.size.toNat := by
    rw [hsize]
    exact ringSize_gt h1 h2
  obtain ⟨hh, hs, hall⟩ := ringOfObjs_holds hempty hlt
  obtain ⟨hring, hnb⟩ := initObjs_ring ((mempoolLayout a).base pool
    (if a.sepObjData then m.dataArea.getD 0 else 0)) _ (List.range a.nbObjs.toNat)
  refine ⟨ring, hr, hring, hnb, ?_, ?_, hall⟩
  · rw [hring]
    exact hh
  · rw [hring]
    show _ < (ringOfObjs ring a.nbObjs.toNat).size.toNat
    rw [hs]
    exact hlt

/-! ## Conservation -/

/-- The fields of an object are those of a fresh one. -/
def IsReset (p : Mempool) (o : Nat) : Prop :=
  (p.obj o).len = p.objSize ∧ (p.obj o).lhr = p.objHeadroom ∧ (p.obj o).ltr = p.objTailroom ∧
    (p.obj o).data = (p.obj o).base + p.objHeadroom

/-- The `n` objects of a pool are in its ring or picked, each once. -/
structure Conserved (n : Nat) (s : Pool) (q : List Nat) : Prop where
  holds : Holds s.mempool.freeObjs q
  perm : (q ++ s.picked).Perm (List.range n)
  room : n < s.mempool.freeObjs.size.toNat

section Conserved

variable {n : Nat} {s s' : Pool} {q : List Nat} {p : Mempool}

theorem Conserved.length (h : Conserved n s q) : q.length + s.picked.length = n := by
  have := h.perm.length_eq
  rwa [List.length_append, List.length_range] at this

theorem Conserved.nodup (h : Conserved n s q) : (q ++ s.picked).Nodup :=
  h.perm.nodup_iff.2 List.nodup_range

/-- Objects that leave the list of the picked ones. -/
theorem perm_diff {l os : List Nat} (hnd : os.Nodup) (hsub : ∀ o ∈ os, o ∈ l) :
    (os ++ l.diff os).Perm l := by
  rw [List.perm_iff_count]
  intro a
  rw [List.count_append, List.count_diff]
  by_cases ha : a ∈ os
  · have h1 := List.count_eq_one_of_mem hnd ha
    have h2 := List.count_pos_iff.2 (hsub a ha)
    omega
  · have h0 := List.count_eq_zero_of_not_mem ha
    omega

theorem resetObjs_frame (p : Mempool) (os : List Nat) :
    (resetObjs p os).freeObjs = p.freeObjs ∧ (resetObjs p os).objSize = p.objSize ∧
      (resetObjs p os).objHeadroom = p.objHeadroom ∧ (resetObjs p os).objTailroom = p.objTailroom ∧
      ∀ o ∉ os, (resetObjs p os).obj o = p.obj o := by
  induction os generalizing p with
  | nil => exact ⟨rfl, rfl, rfl, rfl, fun _ _ => rfl⟩
  | cons a os ih =>
      obtain ⟨h1, h2, h3, h4, h5⟩ :=
        ih { p with obj := Function.update p.obj a (mempoolResetObj p (p.obj a)) }
      refine ⟨h1, h2, h3, h4, fun o ho => ?_⟩
      rw [List.mem_cons, not_or] at ho
      obtain ⟨hne, ho⟩ := ho
      show (resetObjs { p with obj := _ } os).obj o = _
      rw [h5 o ho]
      exact Function.update_of_ne hne _ _

theorem isReset_update (p : Mempool) (o : Nat) :
    IsReset { p with obj := Function.update p.obj o (mempoolResetObj p (p.obj o)) } o := by
  simp [IsReset, mempoolResetObj]

theorem resetObjs_reset (p : Mempool) {os : List Nat} {o : Nat} (ho : o ∈ os) :
    IsReset (resetObjs p os) o := by
  induction os generalizing p with
  | nil => cases ho
  | cons a os ih =>
      by_cases hoa : o ∈ os
      · exact ih _ hoa
      · obtain rfl : o = a := by
          rcases List.mem_cons.1 ho with h | h
          · exact h
          · exact absurd h hoa
        have hfirst := isReset_update p o
        obtain ⟨-, h2, h3, h4, h5⟩ := resetObjs_frame
          { p with obj := Function.update p.obj o (mempoolResetObj p (p.obj o)) } os
        show IsReset (resetObjs { p with obj := _ } os) o
        unfold IsReset at hfirst ⊢
        rw [h5 o hoa, h2, h3, h4]
        exact hfirst

/-- A pick fails exactly if no object is free; the object that it hands out is reset. -/
theorem Conserved.pick (h : Conserved n s q) :
    ((mempoolPick s.mempool).1 = none ↔ q.length < 1) ∧
      (∀ o p, mempoolPick s.mempool = (some o, p) → IsReset p o) ∧
      ∃ q', Conserved n ⟨(mempoolPick s.mempool).2, s.picked ++ (mempoolPick s.mempool).1.toList⟩ q' := by
  have hspec := ringDequeue_spec h.holds
  unfold mempoolPick
  cases q with
  | nil =>
      rw [hspec]
      refine ⟨by simp, fun o p he => ?_, [], ?_⟩
      · cases he
      · simpa using h
  | cons e q =>
      obtain ⟨r', he, hh, hs⟩ := hspec
      rw [he]
      refine ⟨by simp, fun o p heq => ?_, q, ⟨hh, ?_, ?_⟩⟩
      · obtain ⟨hoe, rfl⟩ := Prod.mk.inj heq
        obtain rfl := Option.some.inj hoe
        have := isReset_update { s.mempool with freeObjs := r' } e
        exact this
      · have hperm : (q ++ (s.picked ++ [e])).Perm (e :: q ++ s.picked) := by
          rw [← List.append_assoc]
          exact List.perm_append_singleton _ _
        exact hperm.trans h.perm
      · show n < r'.size.toNat
        rw [hs]
        exact h.room

/-- A pick of several fails exactly if fewer are free; all that it hands out are reset. -/
theorem Conserved.pickMultiple (h : Conserved n s q) (count : Nat) :
    ((mempoolPickMultiple s.mempool count).1 = none ↔ q.length < count) ∧
      (∀ os p, mempoolPickMultiple s.mempool count = (some os, p) →
        os.length = count ∧ ∀ o ∈ os, IsReset p o) ∧
      ∃ q', Conserved n ⟨(mempoolPickMultiple s.mempool count).2,
        s.picked ++ (mempoolPickMultiple s.mempool count).1.getD []⟩ q' := by
  have hspec := ringDequeueMultiple_spec h.holds count
  unfold mempoolPickMultiple
  split at hspec
  · rename_i hle
    obtain ⟨r', he, hh, hs⟩ := hspec
    obtain ⟨hframe, -⟩ := resetObjs_frame { s.mempool with freeObjs := r' } (q.take count)
    rw [he]
    refine ⟨by simp only [reduceCtorEq, false_iff]; omega, fun os p heq => ?_, q.drop count, ⟨?_, ?_, ?_⟩⟩
    · obtain ⟨hos, rfl⟩ := Prod.mk.inj heq
      obtain rfl := Option.some.inj hos
      refine ⟨?_, fun o ho => resetObjs_reset _ ho⟩
      rw [List.length_take]
      omega
    · show Holds (resetObjs { s.mempool with freeObjs := r' } (q.take count)).freeObjs _
      rw [hframe]
      exact hh
    · have hperm : (q.drop count ++ (s.picked ++ q.take count)).Perm (q ++ s.picked) := by
        refine (List.perm_append_comm).trans ?_
        rw [List.append_assoc, List.take_append_drop]
        exact List.perm_append_comm
      exact hperm.trans h.perm
    · show n < (resetObjs { s.mempool with freeObjs := r' } (q.take count)).freeObjs.size.toNat
      rw [hframe]
      show n < r'.size.toNat
      rw [hs]
      exact h.room
  · rename_i hle
    rw [hspec]
    refine ⟨by simp only [true_iff]; omega, fun os p he => ?_, q, ?_⟩
    · cases he
    · simpa using h

/-- Putting a picked object back does not fail. -/
theorem Conserved.put (h : Conserved n s q) {o : Nat} (ho : o ∈ s.picked) :
    (ringEnqueue s.mempool.freeObjs o).1 = 0 ∧
      Conserved n ⟨mempoolPut s.mempool o, s.picked.erase o⟩ (q ++ [o]) := by
  have hspec := ringEnqueue_spec h.holds o
  have hlen := h.length
  have hpos : 0 < s.picked.length := List.length_pos_of_mem ho
  have hroom := h.room
  rw [if_pos (by omega)] at hspec
  obtain ⟨r', he, hh, hs⟩ := hspec
  unfold mempoolPut
  rw [he]
  refine ⟨rfl, hh, ?_, ?_⟩
  · have hperm : (q ++ [o] ++ s.picked.erase o).Perm (q ++ s.picked) := by
      rw [List.append_assoc]
      exact (List.perm_cons_erase ho).symm.append_left q
    exact hperm.trans h.perm
  · show n < r'.size.toNat
    rw [hs]
    exact h.room

theorem Conserved.putMultiple (h : Conserved n s q) {os : List Nat} (hnd : os.Nodup)
    (hsub : ∀ o ∈ os, o ∈ s.picked) : (ringEnqueueMultiple s.mempool.freeObjs os).1 = 0 ∧
      Conserved n ⟨mempoolPutMultiple s.mempool os, s.picked.diff os⟩ (q ++ os) := by
  have hspec := ringEnqueueMultiple_spec h.holds os
  have hperm := perm_diff hnd hsub
  have hlen := h.length
  have hlen' := hperm.length_eq
  rw [List.length_append] at hlen'
  have hroom := h.room
  rw [if_pos (by omega)] at hspec
  obtain ⟨r', he, hh, hs⟩ := hspec
  refine ⟨by rw [he], ?_⟩
  have hperm' : (q ++ os ++ s.picked.diff os).Perm (List.range n) := by
    rw [List.append_assoc]
    exact (hperm.append_left q).trans h.perm
  unfold mempoolPutMultiple
  by_cases h0 : os.length = 0
  · obtain rfl := List.length_eq_zero_iff.1 h0
    rw [if_pos h0, List.append_nil]
    rw [List.append_nil] at hperm'
    exact ⟨h.holds, hperm', hroom⟩
  · rw [if_neg h0, he]
    refine ⟨hh, hperm', ?_⟩
    show n < r'.size.toNat
    rw [hs]
    exact hroom

/-- Every step of the user conserves the objects. -/
theorem conserved_step {e : PoolEvent} (h : ∃ q, Conserved n s q) (hs : pool.Step s e s') :
    ∃ q, Conserved n s' q := by
  obtain ⟨q, h⟩ := h
  obtain ⟨he, hn⟩ := hs
  cases e with
  | pick =>
      obtain rfl := Except.ok.inj hn
      exact h.pick.2.2
  | pickMultiple count =>
      obtain rfl := Except.ok.inj hn
      exact (h.pickMultiple count).2.2
  | put o =>
      obtain rfl := Except.ok.inj hn
      exact ⟨_, (h.put he).2⟩
  | putMultiple os =>
      obtain rfl := Except.ok.inj hn
      exact ⟨_, (h.putMultiple he.1 he.2).2⟩
  | change o data lhr ltr len =>
      obtain rfl := Except.ok.inj hn
      exact ⟨q, h.holds, h.perm, h.room⟩

end Conserved

/-- What holds of a pool with `n` objects in every state of a run. -/
structure PoolOk (n : Nat) (s : Pool) (free : List Nat) : Prop where
  ring : Holds s.mempool.freeObjs free
  once : (free ++ s.picked).Nodup
  total : free.length + s.picked.length = n
  objects : ∀ o, o ∈ free ∨ o ∈ s.picked ↔ o < n
  pick : (mempoolPick s.mempool).1 = none ↔ free.length < 1
  pickMultiple : ∀ k, (mempoolPickMultiple s.mempool k).1 = none ↔ free.length < k
  pickReset : ∀ o p, mempoolPick s.mempool = (some o, p) → IsReset p o
  pickMultipleReset : ∀ k os p, mempoolPickMultiple s.mempool k = (some os, p) →
    os.length = k ∧ ∀ o ∈ os, IsReset p o
  put : ∀ o ∈ s.picked, (ringEnqueue s.mempool.freeObjs o).1 = 0
  putMultiple : ∀ os : List Nat, os.Nodup → (∀ o ∈ os, o ∈ s.picked) →
    (ringEnqueueMultiple s.mempool.freeObjs os).1 = 0

/-- A pool conserves its objects in every run, and its ring never refuses one. The pool is one that
`alloc_enhanced_mempool` returns for any arguments with at least one object; the run is any of picks, puts
and changes of picked objects. `PoolOk` is about the state and the next call: the free and the picked
objects are all objects, once each, and which calls fail. -/
theorem pool_conserved {a : MempoolArgs} {m : MempoolMem} {p : Mempool} (h1 : 1 ≤ a.nbObjs.toNat)
    (h2 : a.nbObjs.toNat < 2 ^ 30) (ha : allocEnhancedMempool a m = .ok (some p)) :
    (∃ ring, allocRing ((1 : UInt32) <<< (log2 a.nbObjs + 1)) m.ring = .ok (some ring) ∧
        p.freeObjs = ringOfObjs ring a.nbObjs.toNat ∧
        ∀ i < a.nbObjs.toNat, (ringEnqueue (ringOfObjs ring i) i).1 = 0) ∧
      ∀ es s, pool.Run ⟨p, []⟩ es s → ∃ free, PoolOk a.nbObjs.toNat s free := by
  obtain ⟨ring, hring, hfree, -, hholds, hroom, hall⟩ := alloc_spec h1 h2 ha
  refine ⟨⟨ring, hring, hfree, hall⟩, fun es s hrun => ?_⟩
  have hstart : ∃ q, Conserved a.nbObjs.toNat ⟨p, []⟩ q :=
    ⟨_, hholds, by rw [List.append_nil], hroom⟩
  obtain ⟨q, hq⟩ := hrun.invariant (I := fun s => ∃ q, Conserved a.nbObjs.toNat s q)
    (fun _ _ _ hI hs => conserved_step hI hs) hstart
  refine ⟨q, hq.holds, hq.nodup, hq.length, fun o => ?_, hq.pick.1, fun k => (hq.pickMultiple k).1,
    hq.pick.2.1, fun k => (hq.pickMultiple k).2.1, fun o ho => (hq.put ho).1,
    fun os hnd hsub => (hq.putMultiple hnd hsub).1⟩
  rw [← List.mem_append, hq.perm.mem_iff, List.mem_range]

/-- Three objects of 16 bytes. -/
def threeObjs : MempoolArgs := ⟨3, 16, 0, 0, 0, 0, false⟩

instance (s : Pool) (e : PoolEvent) : Decidable (pool.Enabled s e) :=
  match e with
  | .pick => inferInstanceAs (Decidable True)
  | .pickMultiple _ => inferInstanceAs (Decidable True)
  | .put o => inferInstanceAs (Decidable (o ∈ s.picked))
  | .putMultiple os => inferInstanceAs (Decidable (os.Nodup ∧ ∀ o ∈ os, o ∈ s.picked))
  | .change o _ _ _ _ => inferInstanceAs (Decidable (o ∈ s.picked))

/-- The heap has room for the pool. -/
def threeMem : MempoolMem := ⟨some 4096, none, some fun _ => 0, fun _ => ⟨0, 0, 0, 0, 0⟩⟩

/-- Two are picked at once, and the third cannot be followed by a fourth. -/
theorem pool_conserved_three : ∃ p s free,
    allocEnhancedMempool threeObjs threeMem = .ok (some p) ∧
      pool.Run ⟨p, []⟩ [.pickMultiple 2, .pick, .pick, .put 1] s ∧ s.picked = [0, 2] ∧
      PoolOk 3 s free := by
  have ha : ∃ p, allocEnhancedMempool threeObjs threeMem = .ok (some p) ∧
      ((pool.exec ⟨p, []⟩ [.pickMultiple 2, .pick, .pick, .put 1]).any
        fun s => s.picked = [0, 2]) = true := ⟨_, rfl, by decide +kernel⟩
  obtain ⟨p, ha, hexec⟩ := ha
  obtain ⟨s, hrun, hpicked⟩ := Machine.Run.of_exec_any hexec
  obtain ⟨free, hok⟩ := (pool_conserved (by decide) (by decide) ha).2 _ _ hrun
  exact ⟨p, s, free, ha, hrun, of_decide_eq_true hpicked, hok⟩

end Minipython.Minios
