/-
# Minipython.Minios.MempoolLayout — where the objects of a pool lie (mempool.c)

`alloc_enhanced_mempool` cuts the objects of a pool out of one or two pieces of memory, with sizes that it
rounds up. `mempoolSizes` are its sizes as it computes them, `exactSizes` the same without overflow; where
nothing overflows they agree, and the areas of all objects are apart.

There are two layouts. With one piece of memory an object lies in front of its data, and the slots are one
behind the other; with two, the objects are in one piece and the data in the other. For both an area is
given as an extent, and `Extent.Packed` says that no two of them meet. The proof goes through the slots: a
slot lies within the memory, an object's own area and its data area lie in its slot, and slots with
different numbers are apart (`slots_apart`).

What `mempool_layout` asks for is that the sizes fit (`SizesFit`: no sum or product leaves 64 bits) and that
`malloc` has granted what was asked for, with the alignment that was asked for (`Granted`).
-/
import Minipython.Lib.Extent
import Minipython.Lib.RoundUp
import Minipython.Lib.Word
import Minipython.Minios.Mempool

namespace Minipython.Minios

open Minipython.Lib
open Minipython.Shfs (Fault)

/-! ## The sizes of `alloc_enhanced_mempool` -/

/-- The sizes that `alloc_enhanced_mempool` allocates and walks with. -/
structure MempoolSizes where
  hSize : UInt64
  mSize : UInt64
  pSize : UInt64
  oSize : UInt64
  poolSize : UInt64
  dataSize : UInt64

def mempoolSizes (a : MempoolArgs) : MempoolSizes :=
  let align := max a.objDataAlign minAlign
  let mSize := alignUp sizeofMempoolObj minAlign
  let pSize := mSize + a.objPrivateLen
  if a.sepObjData then
    let headroom := alignUp a.objHeadroom align
    let hSize := alignUp sizeofMempool minAlign
    let pSize := alignUp pSize minAlign
    let oSize := alignUp (alignUp (headroom + a.objSize + a.objTailroom) align) align
    { hSize := hSize, mSize := mSize, pSize := pSize, oSize := oSize
      poolSize := hSize + a.nbObjs.toUInt64 * pSize
      dataSize := a.nbObjs.toUInt64 * oSize }
  else
    let headroom := alignUp (pSize + a.objHeadroom) align - pSize
    let hSize := alignUp sizeofMempool align
    let oSize := alignUp (alignUp (pSize + headroom + a.objSize + a.objTailroom) align) align
    { hSize := hSize, mSize := mSize, pSize := pSize, oSize := oSize
      poolSize := hSize + a.nbObjs.toUInt64 * oSize
      dataSize := 0 }

/-- The alignment that `alloc_enhanced_mempool` asks for its pool, and for its data area if it has one. -/
def poolAlign (a : MempoolArgs) : UInt64 :=
  if a.sepObjData then minAlign else max a.objDataAlign minAlign
def dataAlign (a : MempoolArgs) : UInt64 := max a.objDataAlign minAlign

/-- The pointer that the loop of `alloc_enhanced_mempool` holds after `i` turns. -/
def objPtr (a : MempoolArgs) (pool : UInt64) : Nat → UInt64
  | 0 => pool + (mempoolSizes a).hSize
  | i + 1 =>
      objPtr a pool i + if a.sepObjData then (mempoolSizes a).pSize else (mempoolSizes a).oSize

/-- The pointer of an object to its private area, 0 for none. -/
def objPrivate (a : MempoolArgs) (obj : UInt64) : UInt64 :=
  if a.objPrivateLen ≠ 0 then obj + (mempoolSizes a).mSize else 0

/-! ## The areas of an object -/

/-- Where a piece of memory lies. -/
def piece (start len : Nat) : Extent Nat := ⟨start, start + len⟩

/-- The header of an object and its private area, if it has one. -/
def ownAreas (a : MempoolArgs) (obj : UInt64) : List (Extent Nat) :=
  piece obj.toNat sizeofMempoolObj.toNat ::
    if a.objPrivateLen = 0 then [] else [piece (objPrivate a obj).toNat a.objPrivateLen.toNat]

/-- The data area of an object with its head- and tailroom. -/
def dataArea (o : MempoolObj) : Extent Nat :=
  piece o.base.toNat (o.lhr.toNat + o.len.toNat + o.ltr.toNat)

/-- The areas of one object of a pool that lies at `pool`, and those of all. -/
def areasOf (a : MempoolArgs) (pool : UInt64) (p : Mempool) (i : Nat) : List (Extent Nat) :=
  ownAreas a (objPtr a pool i) ++ [dataArea (p.obj i)]

def objAreas (a : MempoolArgs) (pool : UInt64) (p : Mempool) : List (Extent Nat) :=
  (List.range a.nbObjs.toNat).flatMap (areasOf a pool p)

/-- The memory that a pool has been given, behind its own `struct mempool`. -/
def poolMemory (a : MempoolArgs) (pool area : UInt64) : List (Extent Nat) :=
  ⟨pool.toNat + sizeofMempool.toNat, pool.toNat + (mempoolSizes a).poolSize.toNat⟩ ::
    if a.sepObjData then [piece area.toNat (mempoolSizes a).dataSize.toNat] else []

/-! ## The same sizes without overflow -/

/-- The sizes as numbers. -/
structure ExactSizes where
  headroom : Nat
  tailroom : Nat
  hSize : Nat
  pSize : Nat
  oSize : Nat

/-- The alignment of the data. -/
def exactAlign (a : MempoolArgs) : Nat := max a.objDataAlign.toNat 8

def exactSizes (a : MempoolArgs) : ExactSizes :=
  let pSize := 56 + a.objPrivateLen.toNat
  if a.sepObjData then
    let headroom := roundUp a.objHeadroom.toNat (exactAlign a)
    let oSize := roundUp (headroom + a.objSize.toNat + a.objTailroom.toNat) (exactAlign a)
    { headroom := headroom, tailroom := oSize - headroom - a.objSize.toNat
      hSize := 88, pSize := roundUp pSize 8, oSize := oSize }
  else
    let headroom := roundUp (pSize + a.objHeadroom.toNat) (exactAlign a) - pSize
    let oSize := roundUp (pSize + headroom + a.objSize.toNat + a.objTailroom.toNat) (exactAlign a)
    { headroom := headroom, tailroom := oSize - headroom - a.objSize.toNat - pSize
      hSize := roundUp 88 (exactAlign a), pSize := pSize, oSize := oSize }

/-- How far the objects are from each other. -/
def exactStride (a : MempoolArgs) : Nat :=
  if a.sepObjData then (exactSizes a).pSize else (exactSizes a).oSize

/-- What is allocated for the pool and for its data area. -/
def exactPoolSize (a : MempoolArgs) : Nat := (exactSizes a).hSize + a.nbObjs.toNat * exactStride a
def exactDataSize (a : MempoolArgs) : Nat :=
  if a.sepObjData then a.nbObjs.toNat * (exactSizes a).oSize else 0

/-- The sizes of a pool do not overflow. -/
def SizesFit (a : MempoolArgs) : Prop := exactPoolSize a < 2 ^ 64 ∧ exactDataSize a < 2 ^ 64

instance (a : MempoolArgs) : Decidable (SizesFit a) := inferInstanceAs (Decidable (_ ∧ _))

/-- The memory of a pool lies at the addresses `pool` and, for a split pool, `area`, aligned as was asked,
both pieces apart from each other. As for all memory of a C program, the pointer behind it does not wrap. -/
structure Granted (a : MempoolArgs) (m : MempoolMem) (pool area : UInt64) : Prop where
  poolAt : m.pool = some pool
  areaAt : a.sepObjData = true → m.dataArea = some area
  poolAligned : (poolAlign a).toNat ∣ pool.toNat
  areaAligned : a.sepObjData = true → (dataAlign a).toNat ∣ area.toNat
  poolEnd : pool.toNat + (mempoolSizes a).poolSize.toNat < 2 ^ 64
  areaEnd : a.sepObjData = true → area.toNat + (mempoolSizes a).dataSize.toNat < 2 ^ 64
  apart : a.sepObjData = true →
    Extent.Apart (piece pool.toNat (mempoolSizes a).poolSize.toNat)
      (piece area.toNat (mempoolSizes a).dataSize.toNat)

/-! ## Nothing overflows -/

section Sizes

variable {a : MempoolArgs}

/-- The check of `alloc_enhanced_mempool` leaves powers of two, from 8 on. -/
theorem dataAlign_pow (h : ¬(a.objDataAlign ≠ 0 ∧ ¬(a.objDataAlign &&& (a.objDataAlign - 1) = 0))) :
    (dataAlign a).toNat = exactAlign a ∧ ∃ k, exactAlign a = 2 ^ k ∧ 8 ∣ exactAlign a := by
  have hmax : (dataAlign a).toNat = exactAlign a := Word.toNat_max _ _
  refine ⟨hmax, ?_⟩
  unfold exactAlign
  by_cases h0 : a.objDataAlign = 0
  · rw [h0]
    exact ⟨3, rfl, Nat.dvd_refl 8⟩
  have hand : a.objDataAlign &&& (a.objDataAlign - 1) = 0 := by
    by_contra hne
    exact h ⟨h0, hne⟩
  have hne : a.objDataAlign.toNat ≠ 0 := fun h => h0 (UInt64.toNat_inj.1 h)
  have hone : (1 : UInt64).toNat = 1 := rfl
  rw [← UInt64.toNat_inj, UInt64.toNat_and, Word.toNat_sub (by rw [hone]; omega), hone] at hand
  obtain ⟨k, hk⟩ := (Nat.and_sub_one_eq_zero_iff_isPowerOfTwo hne).1 hand
  rw [hk]
  by_cases hk3 : 3 ≤ k
  · have hle : 8 ≤ 2 ^ k := (Nat.pow_le_pow_right (by decide) hk3 : 2 ^ 3 ≤ 2 ^ k)
    rw [Nat.max_eq_left hle]
    exact ⟨k, rfl, Nat.pow_dvd_pow 2 hk3⟩
  · have hle : 2 ^ k ≤ 8 := (Nat.pow_le_pow_right (by decide) (by omega) : 2 ^ k ≤ 2 ^ 3)
    rw [Nat.max_eq_right hle]
    exact ⟨3, rfl, Nat.dvd_refl 8⟩

theorem toNat_alignUp {x g : UInt64} (hg : ∃ k, g.toNat = 2 ^ k) (h : roundUp x.toNat g.toNat < 2 ^ 64) :
    (alignUp x g).toNat = roundUp x.toNat g.toNat := by
  obtain ⟨k, hk⟩ := hg
  exact toNat_alignMask hk h

/-- Aligned again, a size stays as it is. -/
theorem alignUp_alignUp {x g : UInt64} (hg : ∃ k, g.toNat = 2 ^ k)
    (h : roundUp x.toNat g.toNat < 2 ^ 64) : alignUp (alignUp x g) g = alignUp x g := by
  have hone := toNat_alignUp hg h
  have hpos : 0 < g.toNat := by
    obtain ⟨k, hk⟩ := hg
    rw [hk]
    exact Nat.two_pow_pos k
  have htwo : roundUp (alignUp x g).toNat g.toNat = (alignUp x g).toNat := by
    rw [hone]
    exact roundUp_of_dvd hpos dvd_roundUp
  rw [← UInt64.toNat_inj, toNat_alignUp hg (by rw [htwo, hone]; exact h), htwo]

theorem exactAlign_pos (a : MempoolArgs) : 0 < exactAlign a :=
  Nat.lt_of_lt_of_le (by decide : 0 < 8) (Nat.le_max_right _ _)

/-- What the sizes leave room for. In a joint pool the data area begins behind the private area. -/
structure Rooms (a : MempoolArgs) : Prop where
  headroom : a.objHeadroom.toNat ≤ (exactSizes a).headroom
  tailroom : a.objTailroom.toNat ≤ (exactSizes a).tailroom
  total : (if a.sepObjData then 0 else (exactSizes a).pSize) + (exactSizes a).headroom + a.objSize.toNat +
    (exactSizes a).tailroom = (exactSizes a).oSize
  aligned : exactAlign a ∣
    (if a.sepObjData then 0 else (exactSizes a).pSize) + (exactSizes a).headroom
  stride : exactAlign a ∣ (exactSizes a).oSize
  own : 56 + a.objPrivateLen.toNat ≤ (exactSizes a).pSize
  header : 88 ≤ (exactSizes a).hSize

theorem rooms (a : MempoolArgs) : Rooms a := by
  have hA := exactAlign_pos a
  have hhead := le_roundUp (n := a.objHeadroom.toNat) hA
  have hown := le_roundUp (n := 56 + a.objPrivateLen.toNat + a.objHeadroom.toNat) hA
  by_cases hsep : a.sepObjData = true
  · have htotal := le_roundUp (n := roundUp a.objHeadroom.toNat (exactAlign a) + a.objSize.toNat +
      a.objTailroom.toNat) hA
    constructor <;> simp only [exactSizes, hsep, if_true, Nat.zero_add]
    · exact hhead
    · omega
    · omega
    · exact dvd_roundUp
    · exact dvd_roundUp
    · exact le_roundUp (by decide)
    · exact Nat.le_refl 88
  · have htotal := le_roundUp (n := 56 + a.objPrivateLen.toNat +
      (roundUp (56 + a.objPrivateLen.toNat + a.objHeadroom.toNat) (exactAlign a) -
        (56 + a.objPrivateLen.toNat)) + a.objSize.toNat + a.objTailroom.toNat) hA
    constructor <;> simp only [exactSizes, hsep, if_false, Bool.false_eq_true]
    · omega
    · omega
    · omega
    · rw [Nat.add_sub_cancel' (by omega)]
      exact dvd_roundUp
    · exact dvd_roundUp
    · exact Nat.le_refl _
    · exact le_roundUp hA

/-- The computed sizes are the exact ones. -/
structure Agree (a : MempoolArgs) : Prop where
  hSize : (mempoolSizes a).hSize.toNat = (exactSizes a).hSize
  mSize : (mempoolSizes a).mSize.toNat = 56
  pSize : (mempoolSizes a).pSize.toNat = (exactSizes a).pSize
  oSize : (mempoolSizes a).oSize.toNat = (exactSizes a).oSize
  headroom : (mempoolLayout a).headroom.toNat = (exactSizes a).headroom
  tailroom : (mempoolLayout a).tailroom.toNat = (exactSizes a).tailroom
  poolSize : (mempoolSizes a).poolSize.toNat = exactPoolSize a
  dataSize : (mempoolSizes a).dataSize.toNat = exactDataSize a

/-- One object fits if all do. -/
theorem stride_lt {n s w : Nat} (hn : 0 < n) (h : n * s < w) : s < w :=
  Nat.lt_of_le_of_lt (Nat.le_mul_of_pos_left s hn) h

theorem mSize_toNat (a : MempoolArgs) : (mempoolSizes a).mSize.toNat = 56 := by
  unfold mempoolSizes
  split <;> rfl

/-- The private area and the header of an object, where the pool fits. -/
theorem own_toNat (h : 56 + a.objPrivateLen.toNat < 2 ^ 64) :
    (alignUp sizeofMempoolObj minAlign + a.objPrivateLen).toNat = 56 + a.objPrivateLen.toNat :=
  Word.toNat_add h

/-- The size of an object: what it uses, rounded up and rounded up again. -/
theorem oSize_toNat {x : UInt64} {n : Nat} (hx : x.toNat = n) (hal : (dataAlign a).toNat = exactAlign a)
    (hpow : ∃ k, exactAlign a = 2 ^ k) (h : roundUp n (exactAlign a) < 2 ^ 64) :
    (alignUp x (dataAlign a)).toNat = roundUp n (exactAlign a) ∧
      alignUp (alignUp x (dataAlign a)) (dataAlign a) = alignUp x (dataAlign a) := by
  subst hx
  rw [← hal] at hpow h ⊢
  exact ⟨toNat_alignUp hpow h, alignUp_alignUp hpow h⟩

/-- The size of all objects. -/
theorem nbObjs_mul {c : UInt32} {x : UInt64} {n : Nat} (hx : x.toNat = n) (h : c.toNat * n < 2 ^ 64) :
    (c.toUInt64 * x).toNat = c.toNat * n := by
  subst hx
  rw [Word.toNat_mul (by rwa [UInt32.toNat_toUInt64]), UInt32.toNat_toUInt64]

/-- What is left of an object behind two parts of it. -/
theorem sub_sub_toNat {x y z : UInt64} (h : y.toNat + z.toNat ≤ x.toNat) :
    (x - y - z).toNat = x.toNat - y.toNat - z.toNat := by
  have h1 := Word.toNat_sub (x := x) (y := y) (by omega)
  rw [Word.toNat_sub (by omega), h1]

/-! ### A split pool -/

theorem exactSizes_split (hsep : a.sepObjData = true) :
    exactSizes a =
      { headroom := roundUp a.objHeadroom.toNat (exactAlign a)
        tailroom := (exactSizes a).oSize - (exactSizes a).headroom - a.objSize.toNat
        hSize := 88
        pSize := roundUp (56 + a.objPrivateLen.toNat) 8
        oSize := roundUp ((exactSizes a).headroom + a.objSize.toNat + a.objTailroom.toNat)
          (exactAlign a) } ∧
      exactPoolSize a = (exactSizes a).hSize + a.nbObjs.toNat * (exactSizes a).pSize ∧
      exactDataSize a = a.nbObjs.toNat * (exactSizes a).oSize := by
  simp only [exactSizes, exactPoolSize, exactDataSize, exactStride, hsep, if_true, and_self]

theorem agree_split (hsep : a.sepObjData = true) (hal : (dataAlign a).toNat = exactAlign a)
    (hpow : ∃ k, exactAlign a = 2 ^ k) (hnb : 0 < a.nbObjs.toNat) (hfit : SizesFit a) : Agree a := by
  obtain ⟨hpool, hdata⟩ := hfit
  obtain ⟨he, hps, hds⟩ := exactSizes_split hsep
  have htail := (rooms a).tailroom
  have htotal := (rooms a).total
  have hown := (rooms a).own
  rw [if_pos hsep, Nat.zero_add] at htotal
  have heh : _ = roundUp a.objHeadroom.toNat (exactAlign a) := congrArg ExactSizes.headroom he
  have heo : _ = roundUp _ (exactAlign a) := congrArg ExactSizes.oSize he
  have hep : _ = roundUp (56 + a.objPrivateLen.toNat) 8 := congrArg ExactSizes.pSize he
  have het : _ = _ - _ - a.objSize.toNat := congrArg ExactSizes.tailroom he
  have heb : _ = 88 := congrArg ExactSizes.hSize he
  rw [hps] at hpool
  rw [hds] at hdata
  have hp := stride_lt hnb (by omega : a.nbObjs.toNat * (exactSizes a).pSize < 2 ^ 64)
  have ho := stride_lt hnb hdata
  -- the sizes in the order in which the code computes them
  have hhead := (oSize_toNat rfl hal hpow (by omega : roundUp a.objHeadroom.toNat _ < _)).1
  rw [← heh] at hhead
  have hused : (alignUp a.objHeadroom (dataAlign a) + a.objSize).toNat =
      (exactSizes a).headroom + a.objSize.toNat := by
    rw [Word.toNat_add (by omega), hhead]
  have hsum : (alignUp a.objHeadroom (dataAlign a) + a.objSize + a.objTailroom).toNat =
      (exactSizes a).headroom + a.objSize.toNat + a.objTailroom.toNat := by
    rw [Word.toNat_add (by omega), hused]
  obtain ⟨hosize, htwice⟩ := oSize_toNat hsum hal hpow (by rw [← heo]; exact ho)
  rw [← heo] at hosize
  have hpraw := own_toNat (a := a) (by omega)
  have hpsize := toNat_alignUp (x := alignUp sizeofMempoolObj minAlign + a.objPrivateLen)
    (g := minAlign) ⟨3, rfl⟩ (by rw [hpraw]; exact hep ▸ hp)
  rw [hpraw] at hpsize
  replace hpsize := hpsize.trans hep.symm
  have hmul := nbObjs_mul (c := a.nbObjs) hpsize (by omega)
  constructor <;> simp only [mempoolSizes, mempoolLayout, hsep, if_true]
  · exact heb.symm
  · rfl
  · exact hpsize
  · exact (congrArg UInt64.toNat htwice).trans hosize
  · exact hhead
  · refine (sub_sub_toNat ?_).trans ?_
    · show (alignUp _ (dataAlign a)).toNat + _ ≤ (alignUp _ (dataAlign a)).toNat
      rw [hhead]
      refine le_trans ?_ (le_of_eq hosize.symm)
      omega
    · rw [het, ← hosize, ← hhead]
      rfl
  · rw [hps, heb, ← hmul]
    exact Word.toNat_add (by rw [hmul]; show 88 + _ < _; omega)
  · rw [hds]
    exact nbObjs_mul ((congrArg UInt64.toNat htwice).trans hosize) hdata

/-! ### A joint pool -/

theorem exactSizes_joint (hsep : ¬a.sepObjData = true) :
    exactSizes a =
      { headroom := roundUp (56 + a.objPrivateLen.toNat + a.objHeadroom.toNat) (exactAlign a) -
          (56 + a.objPrivateLen.toNat)
        tailroom := (exactSizes a).oSize - (exactSizes a).headroom - a.objSize.toNat -
          (exactSizes a).pSize
        hSize := roundUp 88 (exactAlign a)
        pSize := 56 + a.objPrivateLen.toNat
        oSize := roundUp ((exactSizes a).pSize + (exactSizes a).headroom + a.objSize.toNat +
          a.objTailroom.toNat) (exactAlign a) } ∧
      exactPoolSize a = (exactSizes a).hSize + a.nbObjs.toNat * (exactSizes a).oSize ∧
      exactDataSize a = 0 := by
  simp only [exactSizes, exactPoolSize, exactDataSize, exactStride, hsep, if_false, and_self,
    Bool.false_eq_true]

theorem agree_joint (hsep : ¬a.sepObjData = true) (hal : (dataAlign a).toNat = exactAlign a)
    (hpow : ∃ k, exactAlign a = 2 ^ k) (hnb : 0 < a.nbObjs.toNat) (hfit : SizesFit a) : Agree a := by
  have hpool := hfit.1
  obtain ⟨he, hps, hds⟩ := exactSizes_joint hsep
  have htail := (rooms a).tailroom
  have htotal := (rooms a).total
  rw [if_neg hsep] at htotal
  have heh : _ = roundUp _ (exactAlign a) - (56 + a.objPrivateLen.toNat) :=
    congrArg ExactSizes.headroom he
  have heo : _ = roundUp _ (exactAlign a) := congrArg ExactSizes.oSize he
  have hep : _ = 56 + a.objPrivateLen.toNat := congrArg ExactSizes.pSize he
  have het : _ = _ - _ - a.objSize.toNat - _ := congrArg ExactSizes.tailroom he
  have heb : _ = roundUp 88 (exactAlign a) := congrArg ExactSizes.hSize he
  rw [hps] at hpool
  have ho := stride_lt hnb (by omega : a.nbObjs.toNat * (exactSizes a).oSize < 2 ^ 64)
  have hround := le_roundUp (n := 56 + a.objPrivateLen.toNat + a.objHeadroom.toNat) (exactAlign_pos a)
  -- the sizes in the order in which the code computes them
  have hpsize := own_toNat (a := a) (by omega)
  have hraw : (alignUp sizeofMempoolObj minAlign + a.objPrivateLen + a.objHeadroom).toNat =
      56 + a.objPrivateLen.toNat + a.objHeadroom.toNat := by
    rw [Word.toNat_add (by omega), hpsize]
  have halign := (oSize_toNat hraw hal hpow (by omega)).1
  have hhead : (alignUp (alignUp sizeofMempoolObj minAlign + a.objPrivateLen + a.objHeadroom)
      (dataAlign a) - (alignUp sizeofMempoolObj minAlign + a.objPrivateLen)).toNat =
        (exactSizes a).headroom := by
    rw [Word.toNat_sub (by omega), halign, hpsize, heh]
  generalize hp : alignUp sizeofMempoolObj minAlign + a.objPrivateLen = pSize at *
  generalize hh : alignUp (pSize + a.objHeadroom) (dataAlign a) - pSize = headroom at *
  have h1 : (pSize + headroom).toNat = (exactSizes a).pSize + (exactSizes a).headroom := by
    rw [Word.toNat_add (by omega), hpsize, hhead, hep]
  have h2 : (pSize + headroom + a.objSize).toNat =
      (exactSizes a).pSize + (exactSizes a).headroom + a.objSize.toNat := by
    rw [Word.toNat_add (by omega), h1]
  have hsum : (pSize + headroom + a.objSize + a.objTailroom).toNat =
      (exactSizes a).pSize + (exactSizes a).headroom + a.objSize.toNat + a.objTailroom.toNat := by
    rw [Word.toNat_add (by omega), h2]
  obtain ⟨hosize, htwice⟩ := oSize_toNat hsum hal hpow (by rw [← heo]; exact ho)
  rw [← heo] at hosize
  have hhsize := (oSize_toNat (x := sizeofMempool) (n := 88) rfl hal hpow (by omega)).1
  have hmul := nbObjs_mul (c := a.nbObjs) hosize (by omega)
  constructor <;> simp only [mempoolSizes, mempoolLayout, hsep, if_false, Bool.false_eq_true]
  · rw [heb]
    exact hhsize
  · rfl
  · rw [hp, hpsize, hep]
  · rw [hp]
    show (alignUp (alignUp (pSize + (alignUp (pSize + a.objHeadroom) (dataAlign a) - pSize) + _ + _)
      (dataAlign a)) (dataAlign a)).toNat = _
    rw [hh, htwice, hosize]
  · rw [hp]
    show (alignUp (pSize + a.objHeadroom) (dataAlign a) - pSize).toNat = _
    rw [hh, hhead]
  · rw [hp]
    show (alignUp (pSize + (alignUp (pSize + a.objHeadroom) (dataAlign a) - pSize) + _ + _)
      (dataAlign a) - (alignUp (pSize + a.objHeadroom) (dataAlign a) - pSize) - _ - _).toNat = _
    rw [hh]
    have h3 := sub_sub_toNat (x := alignUp (pSize + headroom + a.objSize + a.objTailroom) (dataAlign a))
      (y := headroom) (z := a.objSize) (by omega)
    rw [Word.toNat_sub (by omega), h3]
    omega
  · rw [hp]
    show (alignUp sizeofMempool (dataAlign a) + _ * alignUp (alignUp (pSize +
      (alignUp (pSize + a.objHeadroom) (dataAlign a) - pSize) + _ + _) (dataAlign a))
      (dataAlign a)).toNat = _
    rw [hh, htwice, Word.toNat_add (by omega), hmul, hhsize, hps, heb]
  · rw [hds]
    rfl

theorem agree (h : ¬(a.objDataAlign ≠ 0 ∧ ¬(a.objDataAlign &&& (a.objDataAlign - 1) = 0)))
    (hnb : 0 < a.nbObjs.toNat) (hfit : SizesFit a) : Agree a := by
  obtain ⟨hal, k, hk, -⟩ := dataAlign_pow h
  by_cases hsep : a.sepObjData = true
  · exact agree_split hsep hal ⟨k, hk⟩ hnb hfit
  · exact agree_joint hsep hal ⟨k, hk⟩ hnb hfit

end Sizes

/-! ## The objects behind each other -/

/-- The loop of `alloc_enhanced_mempool` sets the fields of each object. -/
theorem initObjs_obj (base : Nat → UInt64) (p : Mempool) (n : Nat) :
    ((List.range n).foldl (initObj base) p).objSize = p.objSize ∧
      ((List.range n).foldl (initObj base) p).objHeadroom = p.objHeadroom ∧
      ((List.range n).foldl (initObj base) p).objTailroom = p.objTailroom ∧
      ∀ i < n, ((List.range n).foldl (initObj base) p).obj i =
        ⟨base i, base i + p.objHeadroom, p.objHeadroom, p.objTailroom, p.objSize⟩ := by
  induction n with
  | zero => exact ⟨rfl, rfl, rfl, fun i hi => absurd hi (Nat.not_lt_zero i)⟩
  | succ n ih =>
      obtain ⟨hs, hh, ht, hobj⟩ := ih
      rw [List.range_succ, List.foldl_append]
      refine ⟨hs, hh, ht, fun i hi => ?_⟩
      show Function.update _ n _ i = _
      by_cases hin : i = n
      · rw [hin, Function.update_self, mempoolResetObj, hs, hh, ht]
      · rw [Function.update_of_ne hin, hobj i (by omega)]

/-- The fields of the objects of a new pool. -/
theorem alloc_obj {a : MempoolArgs} {m : MempoolMem} {p : Mempool} {pool area : UInt64}
    (hpool : m.pool = some pool) (harea : a.sepObjData = true → m.dataArea = some area)
    (ha : allocEnhancedMempool a m = .ok (some p)) :
    ¬(a.objDataAlign ≠ 0 ∧ ¬(a.objDataAlign &&& (a.objDataAlign - 1) = 0)) ∧
      ∀ i < a.nbObjs.toNat, p.obj i =
        ⟨(mempoolLayout a).base pool area i,
          (mempoolLayout a).base pool area i + (mempoolLayout a).headroom,
          (mempoolLayout a).headroom, (mempoolLayout a).tailroom, a.objSize⟩ := by
  obtain ⟨hassert, pool', ring, p₀, hpool', -, rfl, rfl⟩ := alloc_cases ha
  obtain rfl := Option.some.inj (hpool.symm.trans hpool')
  refine ⟨hassert, fun i hi => ?_⟩
  rw [(initObjs_obj _ _ _).2.2.2 i hi]
  -- a joint pool has no data area, and none of its objects looks at one
  have hbase : (mempoolLayout a).base pool (if a.sepObjData then m.dataArea.getD 0 else 0) i =
      (mempoolLayout a).base pool area i := by
    by_cases hsep : a.sepObjData = true
    · rw [if_pos hsep, harea hsep]
      rfl
    · simp only [mempoolLayout, hsep, if_false, Bool.false_eq_true]
  rw [hbase]

section Layout

variable {a : MempoolArgs} {pool area : UInt64} {i : Nat}

/-- The first address behind the header of a pool. -/
def objsStart (a : MempoolArgs) (pool : UInt64) : Nat := pool.toNat + (exactSizes a).hSize

theorem stride_pos (a : MempoolArgs) : 0 < exactStride a := by
  have hown := (rooms a).own
  have htotal := (rooms a).total
  unfold exactStride
  by_cases hsep : a.sepObjData = true
  · rw [if_pos hsep]
    omega
  · rw [if_neg hsep] at htotal ⊢
    omega

theorem objPtr_toNat (hag : Agree a) (hend : pool.toNat + exactPoolSize a < 2 ^ 64)
    (hi : i < a.nbObjs.toNat) :
    (objPtr a pool i).toNat = objsStart a pool + i * exactStride a := by
  have hstep : (if a.sepObjData then (mempoolSizes a).pSize else (mempoolSizes a).oSize).toNat =
      exactStride a := by
    unfold exactStride
    split
    · exact hag.pSize
    · exact hag.oSize
  have hpos := stride_pos a
  unfold exactPoolSize at hend
  unfold objsStart
  induction i with
  | zero =>
      have hle := Nat.le_mul_of_pos_left (exactStride a) hi
      rw [objPtr, Word.toNat_add (by rw [hag.hSize]; omega), hag.hSize]
      omega
  | succ i ih =>
      have hle := Nat.mul_le_mul_right (exactStride a) hi
      rw [Nat.succ_mul] at hle
      rw [objPtr, Word.toNat_add (by rw [hstep, ih (by omega)]; rw [Nat.succ_mul] at hle; omega), hstep,
        ih (by omega), Nat.succ_mul]
      omega

/-- The objects of a joint pool have their data behind their private area. -/
theorem base_joint (hsep : ¬a.sepObjData = true) :
    (mempoolLayout a).base pool area i = objPtr a pool i + (mempoolSizes a).pSize := by
  have hptr : objPtr a pool i = pool + (mempoolSizes a).hSize + UInt64.ofNat i * (mempoolSizes a).oSize := by
    induction i with
    | zero => simp [objPtr]
    | succ i ih =>
        rw [objPtr, ih, if_neg hsep, UInt64.ofNat_add]
        grind
  rw [hptr]
  simp only [mempoolLayout, mempoolSizes, hsep, if_false, Bool.false_eq_true]

/-- Those of a split pool have it in the data area. -/
theorem base_split (hsep : a.sepObjData = true) :
    (mempoolLayout a).base pool area i = area + UInt64.ofNat i * (mempoolSizes a).oSize := by
  simp only [mempoolLayout, mempoolSizes, hsep, if_true]

/-- The slot that holds the header and the private area of an object, and in a joint pool its data. -/
def ownSlot (a : MempoolArgs) (pool : UInt64) (i : Nat) : Extent Nat :=
  Extent.slot (objsStart a pool) (exactStride a) i

/-- The slot that holds the data of an object. -/
def dataSlot (a : MempoolArgs) (pool area : UInt64) (i : Nat) : Extent Nat :=
  if a.sepObjData then Extent.slot area.toNat (exactSizes a).oSize i else ownSlot a pool i

/-- The addresses of a new pool are those of its memory. -/
structure Placed (a : MempoolArgs) (pool area : UInt64) : Prop where
  agree : Agree a
  poolEnd : pool.toNat + exactPoolSize a < 2 ^ 64
  areaEnd : a.sepObjData = true → area.toNat + exactDataSize a < 2 ^ 64

theorem base_toNat (h : Placed a pool area) (hi : i < a.nbObjs.toNat) :
    ((mempoolLayout a).base pool area i).toNat =
      (dataSlot a pool area i).start + if a.sepObjData then 0 else (exactSizes a).pSize := by
  unfold dataSlot
  by_cases hsep : a.sepObjData = true
  · have hend := h.areaEnd hsep
    have hlt := a.nbObjs.toNat_lt
    have hle := Nat.mul_le_mul_right (exactSizes a).oSize hi
    rw [exactDataSize, if_pos hsep] at hend
    rw [Nat.succ_mul] at hle
    have hmul : (UInt64.ofNat i * (mempoolSizes a).oSize).toNat = i * (exactSizes a).oSize := by
      rw [Word.toNat_mul, Word.toNat_ofNat (by omega), h.agree.oSize]
      rw [Word.toNat_ofNat (by omega), h.agree.oSize]
      omega
    rw [base_split hsep, if_pos hsep, if_pos hsep, Word.toNat_add (by omega), hmul]
    rfl
  · have hend := h.poolEnd
    have htotal := (rooms a).total
    have hle := Nat.mul_le_mul_right (exactStride a) hi
    have hptr := objPtr_toNat h.agree h.poolEnd hi
    rw [exactPoolSize] at hend
    rw [Nat.succ_mul] at hle
    rw [if_neg hsep] at htotal
    have hst : exactStride a = (exactSizes a).oSize := if_neg hsep
    have hps := h.agree.pSize
    unfold objsStart at hptr
    rw [base_joint hsep, if_neg hsep, if_neg hsep, Word.toNat_add (by omega), hptr, hps]
    rfl

/-- Where the header and the private area of an object begin. -/
theorem ownAreas_eq (h : Placed a pool area) (hi : i < a.nbObjs.toNat) :
    ownAreas a (objPtr a pool i) = piece (ownSlot a pool i).start 56 ::
      if a.objPrivateLen = 0 then []
      else [piece ((ownSlot a pool i).start + 56) a.objPrivateLen.toNat] := by
  have hptr := objPtr_toNat h.agree h.poolEnd hi
  have hend := h.poolEnd
  have hle := Nat.mul_le_mul_right (exactStride a) hi
  have hown := (rooms a).own
  have htotal := (rooms a).total
  rw [exactPoolSize] at hend
  rw [Nat.succ_mul] at hle
  have hfits : 56 + a.objPrivateLen.toNat ≤ exactStride a := by
    unfold exactStride
    split
    · exact hown
    · rename_i hsep
      rw [if_neg hsep] at htotal
      omega
  have hpriv : (objPtr a pool i + (mempoolSizes a).mSize).toNat = (ownSlot a pool i).start + 56 := by
    rw [Word.toNat_add (by rw [hptr, mSize_toNat]; unfold objsStart; omega), hptr, mSize_toNat]
    rfl
  unfold ownAreas
  rw [hptr]
  by_cases h0 : a.objPrivateLen = 0
  · rw [if_pos h0, if_pos h0]
    rfl
  · rw [if_neg h0, if_neg h0, objPrivate, if_pos h0, hpriv]
    rfl

/-- The own areas of an object lie at the beginning of its slot. -/
theorem ownAreas_within (h : Placed a pool area) (hi : i < a.nbObjs.toNat) {e : Extent Nat}
    (he : e ∈ ownAreas a (objPtr a pool i)) :
    e.Within (piece (ownSlot a pool i).start (56 + a.objPrivateLen.toNat)) := by
  rw [ownAreas_eq h hi, List.mem_cons] at he
  rcases he with rfl | he
  · exact ⟨Nat.le_refl _, Nat.add_le_add_left (Nat.le_add_right 56 _) _⟩
  · split at he
    · cases he
    · obtain rfl := List.mem_singleton.1 he
      exact ⟨Nat.le_add_right _ 56, Nat.le_of_eq (Nat.add_assoc _ 56 _)⟩

theorem ownAreas_packed (h : Placed a pool area) (hi : i < a.nbObjs.toNat) :
    Extent.Packed (ownAreas a (objPtr a pool i)) := by
  rw [ownAreas_eq h hi]
  refine List.pairwise_cons.2 ⟨fun e he => ?_, ?_⟩
  · split at he
    · cases he
    · obtain rfl := List.mem_singleton.1 he
      exact Or.inl (Nat.le_refl _)
  · split
    · exact List.Pairwise.nil
    · exact List.pairwise_singleton _ _

theorem own_within_slot (a : MempoolArgs) (pool : UInt64) (i : Nat) :
    (piece (ownSlot a pool i).start (56 + a.objPrivateLen.toNat)).Within (ownSlot a pool i) := by
  have hown := (rooms a).own
  have htotal := (rooms a).total
  refine ⟨Nat.le_refl _, ?_⟩
  show objsStart a pool + i * exactStride a + _ ≤ objsStart a pool + (i + 1) * exactStride a
  rw [Nat.succ_mul]
  unfold exactStride
  by_cases hsep : a.sepObjData = true
  · rw [if_pos hsep]
    omega
  · rw [if_neg hsep] at htotal ⊢
    omega

/-- The slots lie in the memory of the pool. -/
theorem ownSlot_within (h : Placed a pool area) (hi : i < a.nbObjs.toNat) :
    (ownSlot a pool i).Within
      ⟨pool.toNat + sizeofMempool.toNat, pool.toNat + (mempoolSizes a).poolSize.toNat⟩ := by
  have hhead := (rooms a).header
  obtain ⟨h1, h2⟩ := @Extent.slot_within (objsStart a pool) (exactStride a) _ _ hi
  have hps := h.agree.poolSize
  unfold exactPoolSize at hps
  unfold objsStart at h1 h2
  have hbehind : pool.toNat + (exactSizes a).hSize + a.nbObjs.toNat * exactStride a =
      pool.toNat + (mempoolSizes a).poolSize.toNat := by omega
  exact ⟨le_trans (Nat.add_le_add_left hhead _) h1, h2.trans hbehind.le⟩

theorem dataSlot_within (h : Placed a pool area) (hsep : a.sepObjData = true)
    (hi : i < a.nbObjs.toNat) :
    (dataSlot a pool area i).Within (piece area.toNat (mempoolSizes a).dataSize.toNat) := by
  rw [dataSlot, if_pos hsep, h.agree.dataSize, exactDataSize, if_pos hsep]
  exact Extent.slot_within hi

/-! ### The data area -/

variable {p : Mempool}

/-- The fields of object `i`, as the loop has set them. -/
def Initialized (a : MempoolArgs) (pool area : UInt64) (p : Mempool) (i : Nat) : Prop :=
  p.obj i = ⟨(mempoolLayout a).base pool area i,
    (mempoolLayout a).base pool area i + (mempoolLayout a).headroom,
    (mempoolLayout a).headroom, (mempoolLayout a).tailroom, a.objSize⟩

/-- The data area of an object ends where its slot ends, and begins behind the own areas if it shares it
with them. -/
theorem dataArea_eq (h : Placed a pool area) (hi : i < a.nbObjs.toNat) (hobj : Initialized a pool area p i) :
    dataArea (p.obj i) =
      ⟨(dataSlot a pool area i).start + (if a.sepObjData then 0 else (exactSizes a).pSize),
        (dataSlot a pool area i).stop⟩ := by
  have hbase := base_toNat h hi
  have htotal := (rooms a).total
  unfold Initialized at hobj
  rw [hobj, dataArea, piece]
  dsimp only
  rw [hbase, h.agree.headroom, h.agree.tailroom]
  unfold dataSlot ownSlot Extent.slot exactStride
  congr 1
  by_cases hsep : a.sepObjData = true
  · simp only [hsep, if_true, Nat.succ_mul] at htotal ⊢
    omega
  · simp only [hsep, if_false, Bool.false_eq_true, Nat.succ_mul] at htotal ⊢
    omega

theorem dataArea_within (h : Placed a pool area) (hi : i < a.nbObjs.toNat)
    (hobj : Initialized a pool area p i) : (dataArea (p.obj i)).Within (dataSlot a pool area i) := by
  rw [dataArea_eq h hi hobj]
  exact ⟨Nat.le_add_right _ _, Nat.le_refl _⟩

/-! ### All objects -/

/-- The two pieces of memory of a split pool are apart. -/
def Split (a : MempoolArgs) (pool area : UInt64) : Prop :=
  a.sepObjData = true → Extent.Apart (piece pool.toNat (mempoolSizes a).poolSize.toNat)
    (piece area.toNat (mempoolSizes a).dataSize.toNat)

/-- In a split pool no object has its own slot in the data area. -/
theorem own_data_apart (h : Placed a pool area) (hsplit : Split a pool area) (hsep : a.sepObjData = true)
    {j : Nat} (hi : i < a.nbObjs.toNat) (hj : j < a.nbObjs.toNat) :
    Extent.Apart (ownSlot a pool i) (dataSlot a pool area j) := by
  refine (hsplit hsep).mono ?_ (dataSlot_within h hsep hj)
  obtain ⟨h1, h2⟩ := ownSlot_within h hi
  exact ⟨le_trans (Nat.le_add_right _ _) h1, h2⟩

/-- The slots of one object are apart from those of another. -/
theorem slots_apart (h : Placed a pool area) (hsplit : Split a pool area) {j : Nat} (hne : i ≠ j)
    (hi : i < a.nbObjs.toNat) (hj : j < a.nbObjs.toNat) :
    Extent.Apart (ownSlot a pool i) (ownSlot a pool j) ∧
      Extent.Apart (ownSlot a pool i) (dataSlot a pool area j) ∧
      Extent.Apart (dataSlot a pool area i) (ownSlot a pool j) ∧
      Extent.Apart (dataSlot a pool area i) (dataSlot a pool area j) := by
  have hown : Extent.Apart (ownSlot a pool i) (ownSlot a pool j) := Extent.slot_apart hne
  by_cases hsep : a.sepObjData = true
  · refine ⟨hown, own_data_apart h hsplit hsep hi hj, (own_data_apart h hsplit hsep hj hi).symm, ?_⟩
    unfold dataSlot
    rw [if_pos hsep, if_pos hsep]
    exact Extent.slot_apart hne
  · unfold dataSlot
    rw [if_neg hsep, if_neg hsep]
    exact ⟨hown, hown, hown, hown⟩

theorem areasOf_within (h : Placed a pool area) (hi : i < a.nbObjs.toNat)
    (hobj : Initialized a pool area p i) {e : Extent Nat} (he : e ∈ areasOf a pool p i) :
    e.Within (ownSlot a pool i) ∨ e.Within (dataSlot a pool area i) := by
  rcases List.mem_append.1 he with he | he
  · exact Or.inl ((ownAreas_within h hi he).trans (own_within_slot a pool i))
  · obtain rfl := List.mem_singleton.1 he
    exact Or.inr (dataArea_within h hi hobj)

theorem areasOf_packed (h : Placed a pool area) (hsplit : Split a pool area) (hi : i < a.nbObjs.toNat)
    (hobj : Initialized a pool area p i) : Extent.Packed (areasOf a pool p i) := by
  refine List.pairwise_append.2 ⟨ownAreas_packed h hi, List.pairwise_singleton _ _, fun e he f hf => ?_⟩
  obtain rfl := List.mem_singleton.1 hf
  have hwithin := ownAreas_within h hi he
  by_cases hsep : a.sepObjData = true
  · exact (own_data_apart h hsplit hsep hi hi).mono (hwithin.trans (own_within_slot a pool i))
      (dataArea_within h hi hobj)
  · -- the data of a joint pool begins behind the private area
    have hown := (rooms a).own
    have hstart := dataArea_eq h hi hobj
    rw [dataSlot, if_neg hsep, if_neg hsep] at hstart
    rw [hstart]
    exact Or.inl (hwithin.2.trans (Nat.add_le_add_left hown _))

theorem objAreas_packed (h : Placed a pool area) (hsplit : Split a pool area)
    (hobj : ∀ i < a.nbObjs.toNat, Initialized a pool area p i) :
    Extent.Packed (objAreas a pool p) := by
  refine List.pairwise_flatMap.2 ⟨fun i hi => ?_, ?_⟩
  · have hi := List.mem_range.1 hi
    exact areasOf_packed h hsplit hi (hobj i hi)
  · refine List.Pairwise.imp_of_mem (fun {i j} hi hj hlt e he f hf => ?_) List.pairwise_lt_range
    have hi := List.mem_range.1 hi
    have hj := List.mem_range.1 hj
    obtain ⟨h1, h2, h3, h4⟩ := slots_apart h hsplit (Nat.ne_of_lt hlt) hi hj
    rcases areasOf_within h hi (hobj i hi) he with he | he <;>
      rcases areasOf_within h hj (hobj j hj) hf with hf | hf
    · exact h1.mono he hf
    · exact h2.mono he hf
    · exact h3.mono he hf
    · exact h4.mono he hf

theorem objAreas_within (h : Placed a pool area)
    (hobj : ∀ i < a.nbObjs.toNat, Initialized a pool area p i) {e : Extent Nat}
    (he : e ∈ objAreas a pool p) : ∃ f ∈ poolMemory a pool area, e.Within f := by
  obtain ⟨i, hi, he⟩ := List.mem_flatMap.1 he
  have hi := List.mem_range.1 hi
  rcases areasOf_within h hi (hobj i hi) he with he | he
  · exact ⟨_, List.mem_cons_self, he.trans (ownSlot_within h hi)⟩
  · by_cases hsep : a.sepObjData = true
    · refine ⟨piece area.toNat (mempoolSizes a).dataSize.toNat, ?_, he.trans (dataSlot_within h hsep hi)⟩
      rw [poolMemory, if_pos hsep]
      exact List.mem_cons_of_mem _ List.mem_cons_self
    · rw [dataSlot, if_neg hsep] at he
      exact ⟨_, List.mem_cons_self, he.trans (ownSlot_within h hi)⟩

/-! ### The data of an object -/

/-- Where the data area of an object begins, the headroom before it, is a multiple of the alignment. -/
theorem dataSlot_aligned (hpool : a.sepObjData = false → exactAlign a ∣ pool.toNat)
    (harea : a.sepObjData = true → exactAlign a ∣ area.toNat) :
    exactAlign a ∣ (dataSlot a pool area i).start := by
  have hstride := (rooms a).stride
  unfold dataSlot
  by_cases hsep : a.sepObjData = true
  · rw [if_pos hsep]
    exact Nat.dvd_add (harea hsep) (hstride.mul_left i)
  · have hhead : exactAlign a ∣ (exactSizes a).hSize := by
      rw [(exactSizes_joint hsep).1]
      exact dvd_roundUp
    have hst : exactStride a = (exactSizes a).oSize := if_neg hsep
    rw [if_neg hsep]
    show exactAlign a ∣ pool.toNat + (exactSizes a).hSize + i * exactStride a
    rw [hst]
    exact Nat.dvd_add (Nat.dvd_add (hpool (Bool.eq_false_iff.2 hsep)) hhead) (hstride.mul_left i)

/-- The slot of the data ends within the memory, so nothing wraps before its end. -/
theorem dataSlot_lt (h : Placed a pool area) (hi : i < a.nbObjs.toNat) :
    (dataSlot a pool area i).stop < 2 ^ 64 := by
  by_cases hsep : a.sepObjData = true
  · have hend := h.areaEnd hsep
    have hle := (dataSlot_within h hsep hi).2
    rw [h.agree.dataSize] at hle
    exact lt_of_le_of_lt hle hend
  · have hend := h.poolEnd
    have hle := (ownSlot_within h hi).2
    rw [h.agree.poolSize] at hle
    rw [dataSlot, if_neg hsep]
    exact lt_of_le_of_lt hle hend

/-- The data pointer does not wrap and is aligned. -/
theorem data_toNat (h : Placed a pool area) (hi : i < a.nbObjs.toNat)
    (hobj : Initialized a pool area p i) :
    (p.obj i).data.toNat = (p.obj i).base.toNat + (p.obj i).lhr.toNat ∧
      (p.obj i).data.toNat = (dataSlot a pool area i).start +
        ((if a.sepObjData then 0 else (exactSizes a).pSize) + (exactSizes a).headroom) := by
  have harea := dataArea_eq h hi hobj
  have hlt := dataSlot_lt h hi
  have hbase := base_toNat h hi
  have hhead := h.agree.headroom
  have hstop := congrArg Extent.stop harea
  unfold Initialized at hobj
  rw [hobj] at hstop ⊢
  dsimp only [dataArea, piece] at hstop ⊢
  rw [hhead] at hstop
  rw [Word.toNat_add (by rw [hhead]; omega), hbase, hhead]
  exact ⟨rfl, Nat.add_assoc _ _ _⟩

end Layout

/-- The objects of a new pool are apart from each other, inside the memory that was allocated for them, with
aligned data and at least the rooms that were asked for. It holds for both layouts, as long as no size
overflows and the allocations are what was asked for. -/
theorem mempool_layout {a : MempoolArgs} {m : MempoolMem} {p : Mempool} {pool area : UInt64}
    (hfit : SizesFit a) (hm : Granted a m pool area) (ha : allocEnhancedMempool a m = .ok (some p)) :
    Extent.Packed (objAreas a pool p) ∧
      (∀ e ∈ objAreas a pool p, ∃ f ∈ poolMemory a pool area, e.Within f) ∧
      ∀ i < a.nbObjs.toNat,
        (p.obj i).data.toNat % max a.objDataAlign.toNat 8 = 0 ∧
          (p.obj i).data.toNat = (p.obj i).base.toNat + (p.obj i).lhr.toNat ∧
          a.objHeadroom ≤ (p.obj i).lhr ∧ a.objTailroom ≤ (p.obj i).ltr ∧ (p.obj i).len = a.objSize := by
  obtain ⟨hassert, hobj⟩ := alloc_obj hm.poolAt hm.areaAt ha
  have hplaced : 0 < a.nbObjs.toNat → Placed a pool area := fun hnb =>
    have hag := agree hassert hnb hfit
    ⟨hag, hag.poolSize ▸ hm.poolEnd, fun hsep => hag.dataSize ▸ hm.areaEnd hsep⟩
  rcases Nat.eq_zero_or_pos a.nbObjs.toNat with h0 | hnb
  · -- no object, no area
    have hnil : objAreas a pool p = [] := by
      rw [objAreas, h0]
      rfl
    rw [hnil]
    refine ⟨List.Pairwise.nil, fun e he => absurd he List.not_mem_nil, fun i hi => ?_⟩
    omega
  have h := hplaced hnb
  obtain ⟨hal, -⟩ := dataAlign_pow hassert
  refine ⟨objAreas_packed h hm.apart hobj, fun e he => objAreas_within h hobj he, fun i hi => ?_⟩
  obtain ⟨hdata, hpos⟩ := data_toNat h hi (hobj i hi)
  have hslot : exactAlign a ∣ (dataSlot a pool area i).start := by
    refine dataSlot_aligned (fun hsep => ?_) fun hsep => ?_
    · have hdvd := hm.poolAligned
      rw [poolAlign, if_neg (Bool.eq_false_iff.1 hsep)] at hdvd
      exact hal ▸ hdvd
    · exact hal ▸ hm.areaAligned hsep
  have hrooms := rooms a
  refine ⟨?_, hdata, ?_, ?_, ?_⟩
  · rw [hpos]
    exact Nat.mod_eq_zero_of_dvd (Nat.dvd_add hslot hrooms.aligned)
  · rw [hobj i hi, UInt64.le_iff_toNat_le]
    dsimp only
    rw [h.agree.headroom]
    exact hrooms.headroom
  · rw [hobj i hi, UInt64.le_iff_toNat_le]
    dsimp only
    rw [h.agree.tailroom]
    exact hrooms.tailroom
  · rw [hobj i hi]

/-- Three objects of 100 bytes with all rooms, their data in an area of its own. -/
def splitObjs : MempoolArgs := ⟨3, 100, 64, 10, 5, 12, true⟩

/-- The heap has room for both parts. -/
def splitMem : MempoolMem := ⟨some 4096, some 8192, some fun _ => 0, fun _ => ⟨0, 0, 0, 0, 0⟩⟩

theorem mempool_layout_split : ∃ p, allocEnhancedMempool splitObjs splitMem = .ok (some p) ∧
    Extent.Packed (objAreas splitObjs 4096 p) ∧ (p.obj 2).data.toNat % 64 = 0 := by
  have ha : ∃ p, allocEnhancedMempool splitObjs splitMem = .ok (some p) := ⟨_, rfl⟩
  obtain ⟨p, ha⟩ := ha
  have hm : Granted splitObjs splitMem 4096 8192 :=
    ⟨rfl, fun _ => rfl, by decide, fun _ => by decide, by decide, fun _ => by decide,
      fun _ => Or.inl (by decide)⟩
  obtain ⟨hpacked, -, hobj⟩ := mempool_layout (by decide) hm ha
  exact ⟨p, ha, hpacked, (hobj 2 (by decide)).1⟩

end Minipython.Minios
