/-
# Minipython.Shfs.HtablePick — elements by their total index (htable.h, shfs_btable.h)

`htable_pick` reads the slot that `shfs_btable_feed` fills at the same index. Both split the index and keep 32 bits
of the bucket number. `shfs_btable_feed` asserts that the bucket exists; `htable_pick` compares with `>`, so
it takes the number of buckets for a bucket, and the bucket number of a far index may come around to a bucket of
the table.

`Picks` is what is expected, for an index behind the table and for one in it. It fails exactly there
(`htable_pick_iff`).

The index is a number of 64 bits and the dimensions have 32. For an index in the table `Picks` asks for the
element that was fed at that index, after any operations on other slots (`htablePick_fed`). For one behind
it there is no element, so the answer should be `NULL`; it is not where the bucket is number `nb_bkts`,
which is read behind the table, and where its number modulo `2 ^ 32` is that of a bucket with an element.

A table of buckets without slots is divided by zero. That counts as picking wrong, as nothing is returned.
-/
import Minipython.Shfs.HtableList

namespace Minipython.Shfs

open Minipython.Lib
open Htable

/-! ## The code -/

/-- How `htable_pick` can fail to return. -/
inductive PickFault where
  /-- a division by zero -/
  | divide
  /-- an access to a bucket that does not exist -/
  | bucket (bktIdx : Nat)
  deriving DecidableEq, Repr

/-- The values of `errno` with which `htable_pick` returns `NULL`. -/
inductive PickErrno where
  | erange
  | enoent
  deriving DecidableEq, Repr

/-- `htable_pick`. -/
def htablePick (bt : Htable) (elIdx : Nat) : Except PickFault (Except PickErrno HtableEl) :=
  if bt.elPerBkt = 0 then .error .divide
  else
    let bktIdx := (elIdx / bt.elPerBkt) % u32Size
    let elIdxBkt := (elIdx % bt.elPerBkt) % u32Size
    if bt.nbBkts < bktIdx then .ok (.error .erange)
    else if bktIdx < bt.nbBkts then
      if bt.isFree (bktIdx, elIdxBkt) then .ok (.error .enoent) else .ok (.ok (bktIdx, elIdxBkt))
    else .error (.bucket bktIdx)

/-! ## What it should do -/

/-- The slots whose digests an operation writes. -/
def htableWrites (bt : Htable) : HtableOp → List HtableEl
  | .add h =>
      match htableAdd bt h with
      | .ok (some el, _) => [el]
      | _ => []
  | .lookupAdd h =>
      match htableLookupAdd bt h with
      | .ok (some (el, true), _) => [el]
      | _ => []
  | .rm el => [el]
  | .clear => foreachHtableEl bt
  | .feed entIdx h =>
      match shfsBtableFeed bt entIdx h with
      | .ok (el, _) => [el]
      | _ => []

/-- A table under operations on other slots than that of an index. -/
def sparing (i : Nat) : Machine Htable HtableOp Fault :=
  htableOps.restrict fun bt op => bt.slot i ∉ htableWrites bt op

/-- Behind the table there is no element, and no bucket is touched that does not exist. In it there is the
element that was fed with the index, as long as only other slots have been written since, and none if the digest
was zero. -/
structure Picks (bt : Htable) (i : Nat) : Prop where
  behind : bt.nbBkts * bt.elPerBkt ≤ i → ∃ e, htablePick bt i = .ok (.error e)
  fed : i < bt.nbBkts * bt.elPerBkt → ∀ bt₀ h el bt₁ ops, shfsBtableFeed bt₀ i h = .ok (el, bt₁) →
    (sparing i).Run bt₁ ops bt →
    htablePick bt i = .ok (if hashIsZero h bt.hlen then .error .enoent else .ok el)

/-! ## The slots that an operation does not write -/

section Spared

variable {bt bt' : Htable} {h : Hash512} {el x : HtableEl} {i : Nat}

/-- The dimensions stay, and so does the digest in a slot. -/
def Spared (el : HtableEl) (bt bt' : Htable) : Prop := SameGeom bt bt' ∧ bt'.h el = bt.h el

theorem Spared.refl (el : HtableEl) (bt : Htable) : Spared el bt bt := ⟨SameGeom.refl bt, rfl⟩

theorem Spared.trans {a b c : Htable} (h : Spared el a b) (h' : Spared el b c) : Spared el a c :=
  ⟨h.1.trans h'.1, h'.2.trans h.2⟩

theorem spared_setHash (v : Hash512) (hx : x ≠ el) : Spared x bt (bt.setHash el v) :=
  ⟨⟨rfl, rfl, rfl⟩, Function.update_of_ne hx _ _⟩

theorem linkTail_spared (hlink : htableLinkTail bt el = .ok bt') (x : HtableEl) : Spared x bt bt' := by
  unfold htableLinkTail at hlink
  split at hlink
  · cases hlink
  · cases hlink
    exact ⟨⟨rfl, rfl, rfl⟩, rfl⟩

/-- `htable_add` writes the slot that it returns. -/
theorem htableAdd_spared {r : Option HtableEl} (hadd : htableAdd bt h = .ok (r, bt')) (hx : r ≠ some x) :
    Spared x bt bt' := by
  unfold htableAdd at hadd
  split at hadd
  · cases hadd
    exact Spared.refl x bt
  · dsimp only at hadd
    split at hadd
    · cases hadd
      exact Spared.refl x bt
    · rcases ok_of_bind hadd with ⟨u, hlink, hu⟩
      cases hu
      have hne : x ≠ _ := fun he => hx (congrArg some he.symm)
      exact (spared_setHash _ hne).trans (linkTail_spared hlink x)

/-- `htable_clear` writes the slots on the list. -/
theorem htableClear_spared (hx : x ∉ foreachHtableEl bt) : Spared x bt (htableClear bt) := by
  have hfold : ∀ (l : List HtableEl) (u : Htable), x ∉ l →
      Spared x u (l.foldl (fun bt el => bt.setHash el (hashClear (bt.h el) bt.hlen)) u) := by
    intro l
    induction l with
    | nil => exact fun u _ => Spared.refl x u
    | cons y l ih =>
        intro u hnot
        have hne : x ≠ y := fun he => hnot (by simp [he])
        exact (spared_setHash _ hne).trans (ih _ fun hm => hnot (by simp [hm]))
  exact hfold (foreachHtableEl bt) bt hx

/-- What `shfs_btable_feed` has done when it returns, whatever the list is. -/
theorem feed_ok (hfeed : shfsBtableFeed bt i h = .ok (el, bt')) :
    el = (i / bt.elPerBkt % u32Size, i % bt.elPerBkt % u32Size) ∧ SameGeom bt bt' ∧
      bt'.h = Function.update bt.h el (hashCopy (bt.h el) h bt.hlen) := by
  unfold shfsBtableFeed at hfeed
  dsimp only at hfeed
  split at hfeed
  · -- a previous entry is unlinked, which touches no digest
    generalize hset : (if bt.isFree (i / bt.elPerBkt % u32Size, i % bt.elPerBkt % u32Size) = true then bt
      else bt.setList (DList.unlink bt.links bt.ends
        (i / bt.elPerBkt % u32Size, i % bt.elPerBkt % u32Size))) = u at hfeed
    have hu : SameGeom bt u ∧ u.h = bt.h := by
      rw [← hset]
      split <;> exact ⟨⟨rfl, rfl, rfl⟩, rfl⟩
    rcases hu with ⟨hg, hh⟩
    split at hfeed
    · cases hfeed
      refine ⟨rfl, hg, ?_⟩
      simp only [setHash, hh, hg.2.2]
    · rcases ok_of_bind hfeed with ⟨u, hlink, hu⟩
      cases hu
      have hsame : ∀ y, Spared y _ _ := linkTail_spared hlink
      refine ⟨rfl, hg.trans (hsame (0, 0)).1, ?_⟩
      funext y
      rw [(hsame y).2]
      simp only [setHash, hh, hg.2.2]
  · cases hfeed

/-- Each operation leaves the digests of the slots that it does not write. -/
theorem htableOp_spared {op : HtableOp} {r : Option HtableEl} (hop : htableOp bt op = .ok (r, bt'))
    (hx : x ∉ htableWrites bt op) : Spared x bt bt' := by
  cases op with
  | add h =>
      have hadd : htableAdd bt h = .ok (r, bt') := hop
      rw [htableWrites, hadd] at hx
      apply htableAdd_spared hadd
      rintro rfl
      simp at hx
  | lookupAdd h =>
      rcases ok_of_bind hop with ⟨⟨y, u⟩, hla, hres⟩
      cases hres
      rw [htableWrites, hla] at hx
      rw [htableLookupAdd_eq] at hla
      cases hlook : htableLookup bt h with
      | some el =>
          rw [hlook] at hla
          cases hla
          exact Spared.refl x bt
      | none =>
          rw [hlook] at hla
          cases hadd : htableAdd bt h with
          | error f =>
              rw [hadd] at hla
              cases hla
          | ok z =>
              rw [hadd] at hla
              cases hla
              apply htableAdd_spared hadd
              intro hz
              rw [hz] at hx
              simp at hx
  | rm el =>
      cases hop
      have hne : x ≠ el := by simpa [htableWrites] using hx
      exact ⟨⟨rfl, rfl, rfl⟩, Function.update_of_ne hne _ _⟩
  | clear =>
      cases hop
      exact htableClear_spared hx
  | feed entIdx h =>
      rcases ok_of_bind hop with ⟨⟨el, u⟩, hfeed, hres⟩
      cases hres
      rw [htableWrites, hfeed] at hx
      rcases feed_ok hfeed with ⟨-, hg, hh⟩
      have hne : x ≠ el := by simpa using hx
      refine ⟨hg, ?_⟩
      rw [hh, Function.update_of_ne hne]

/-- So does a run of such operations. -/
theorem sparing_run {ops : List HtableOp} (hrun : (sparing i).Run bt ops bt') :
    Spared (bt.slot i) bt bt' := by
  apply hrun.invariant (I := Spared (bt.slot i) bt)
  · rintro u op v hu hstep
    rcases Machine.restrict_step.1 hstep with ⟨⟨-, hnext⟩, hnot⟩
    rw [hu.1.slot] at hnot
    cases hop : htableOp u op with
    | error f =>
        have herr : (htableOp u op).map (·.2) = .ok v := hnext
        rw [hop] at herr
        cases herr
    | ok z =>
        have hok : (htableOp u op).map (·.2) = .ok v := hnext
        rw [hop] at hok
        cases hok
        exact hu.trans (htableOp_spared hop hnot)
  · exact Spared.refl _ bt

end Spared

/-! ## An index in the table and behind it -/

section Pick

variable {bt : Htable} {i : Nat}

theorem htablePick_inside (hi : i < bt.nbBkts * bt.elPerBkt) (hb : bt.nbBkts ≤ u32Size)
    (he : bt.elPerBkt ≤ u32Size) :
    htablePick bt i = .ok (if bt.isFree (bt.slot i) then .error .enoent else .ok (bt.slot i)) := by
  have hslot := slot_inRange hi
  have hne : bt.elPerBkt ≠ 0 := fun h0 => by simp [h0] at hi
  have hlt : i / bt.elPerBkt < bt.nbBkts := hslot.1
  have htrunc := Prod.mk.inj (slot_trunc hi hb he)
  rw [htablePick, if_neg hne]
  simp only [htrunc.1, htrunc.2]
  rw [if_neg (Nat.not_lt.2 (Nat.le_of_lt hlt)), if_pos hlt]
  show (if bt.isFree (bt.slot i) = true then _ else _) = _
  cases bt.isFree (bt.slot i) <;> rfl

/-- In the table an element is picked as it was fed. -/
theorem htablePick_fed {bt₀ bt₁ : Htable} {h : Hash512} {el : HtableEl} {ops : List HtableOp}
    (hi : i < bt.nbBkts * bt.elPerBkt) (hb : bt.nbBkts ≤ u32Size) (he : bt.elPerBkt ≤ u32Size)
    (hfeed : shfsBtableFeed bt₀ i h = .ok (el, bt₁)) (hrun : (sparing i).Run bt₁ ops bt) :
    htablePick bt i = .ok (if hashIsZero h bt.hlen then .error .enoent else .ok el) := by
  rcases feed_ok hfeed with ⟨hel, hg₁, hh₁⟩
  rcases sparing_run hrun with ⟨hg, hh⟩
  have hgeom : SameGeom bt₀ bt := hg₁.trans hg
  have hslot : el = bt.slot i := by
    rw [hel, ← slot_trunc hi hb he, hgeom.2.1]
  have hfree : bt.isFree el = hashIsZero h bt.hlen := by
    rw [hg₁.slot, ← hgeom.slot, ← hslot] at hh
    rw [Htable.isFree, hh, hh₁, Function.update_self, hgeom.2.2, hashIsZero_hashCopy]
  rw [htablePick_inside hi hb he, ← hslot, hfree]

/-- Behind the table `NULL` is returned if the bucket number is larger than the number of buckets, or comes around
to a slot that is free. -/
theorem htablePick_behind (he : bt.elPerBkt ≤ u32Size) :
    (∃ e, htablePick bt i = .ok (.error e)) ↔ 0 < bt.elPerBkt ∧
      (bt.nbBkts < i / bt.elPerBkt % u32Size ∨ i / bt.elPerBkt % u32Size < bt.nbBkts ∧
        bt.isFree (i / bt.elPerBkt % u32Size, i % bt.elPerBkt) = true) := by
  by_cases h0 : bt.elPerBkt = 0
  · rw [htablePick, if_pos h0, h0]
    simp
  · have hpos : 0 < bt.elPerBkt := Nat.pos_of_ne_zero h0
    have hidx : i % bt.elPerBkt % u32Size = i % bt.elPerBkt :=
      Nat.mod_eq_of_lt (Nat.lt_of_lt_of_le (Nat.mod_lt i hpos) he)
    rw [htablePick, if_neg h0]
    simp only [hidx]
    rcases Nat.lt_trichotomy bt.nbBkts (i / bt.elPerBkt % u32Size) with hlt | heq | hgt
    · rw [if_pos hlt]
      exact ⟨fun _ => ⟨hpos, .inl hlt⟩, fun _ => ⟨_, rfl⟩⟩
    · rw [← heq, if_neg (Nat.lt_irrefl _), if_neg (Nat.lt_irrefl _)]
      constructor
      · rintro ⟨e, hpick⟩
        cases hpick
      · rintro ⟨-, hlt | ⟨hlt, -⟩⟩
        · exact absurd hlt (Nat.lt_irrefl _)
        · exact absurd hlt (Nat.lt_irrefl _)
    · have hnot := Nat.not_lt.2 (Nat.le_of_lt hgt)
      rw [if_neg hnot, if_pos hgt]
      split
      · rename_i hfree
        exact ⟨fun _ => ⟨hpos, .inr ⟨hgt, hfree⟩⟩, fun _ => ⟨_, rfl⟩⟩
      · rename_i hused
        constructor
        · rintro ⟨e, hpick⟩
          cases hpick
        · rintro ⟨-, hlt | ⟨-, hfree⟩⟩
          · exact absurd hlt hnot
          · exact absurd hfree hused

/-- An index is picked as expected exactly if it is in the table, or its bucket number with 32 bits is
larger than the number of buckets, or comes around to a slot that is free. In the table an index picks what
was fed at it, whatever was done to other slots since; behind the table it is to pick nothing. -/
theorem htable_pick_iff (hb : bt.nbBkts < u32Size) (he : bt.elPerBkt < u32Size) (i : Nat) :
    Picks bt i ↔ i < bt.nbBkts * bt.elPerBkt ∨ 0 < bt.elPerBkt ∧
      (bt.nbBkts < i / bt.elPerBkt % u32Size ∨ i / bt.elPerBkt % u32Size < bt.nbBkts ∧
        bt.isFree (i / bt.elPerBkt % u32Size, i % bt.elPerBkt) = true) := by
  rw [← htablePick_behind (Nat.le_of_lt he)]
  constructor
  · intro hp
    rcases Nat.lt_or_ge i (bt.nbBkts * bt.elPerBkt) with hi | hi
    · exact .inl hi
    · exact .inr (hp.behind hi)
  · intro hor
    refine ⟨fun hi => hor.resolve_left (Nat.not_lt.2 hi), fun hi => ?_⟩
    intro bt₀ h el bt₁ ops hfeed hrun
    exact htablePick_fed hi (Nat.le_of_lt hb) (Nat.le_of_lt he) hfeed hrun

/-- Two buckets of two elements, and a digest that is not zero. -/
def fourElements : Htable := allocHtable 2 2 8

def fullDigest : Hash512 := fun _ => 255

/-- The last index of the table, and one far behind it, are picked as expected. -/
theorem htable_pick_some : ∃ el bt, shfsBtableFeed fourElements 3 fullDigest = .ok (el, bt) ∧ Picks bt 3 ∧
    Picks bt 100 := by
  have hb : (2 : Nat) < u32Size := by decide
  exact ⟨(1, 1), _, rfl, (htable_pick_iff hb hb 3).2 (by decide), (htable_pick_iff hb hb 100).2 (by decide)⟩

/-- The first index behind the table touches a third bucket. An index of 34 bits comes around to the first
element. -/
theorem htable_pick_end : htablePick fourElements 4 = .error (.bucket 2) ∧ ¬Picks fourElements 4 ∧
    ∃ el bt, shfsBtableFeed fourElements 0 fullDigest = .ok (el, bt) ∧
      htablePick bt (2 * u32Size) = .ok (.ok el) ∧ ¬Picks bt (2 * u32Size) := by
  have hfault : htablePick fourElements 4 = .error (.bucket 2) := by decide
  refine ⟨hfault, fun hp => ?_, (0, 0), _, rfl, rfl, fun hp => ?_⟩
  · rcases hp.behind (by decide) with ⟨e, he⟩
    rw [hfault] at he
    cases he
  · rcases hp.behind (by decide) with ⟨e, he⟩
    cases he

end Pick

end Minipython.Shfs
