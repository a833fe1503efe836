/-
# Minipython.Shfs.Htable — the bucket table (htable.h, htable.c, shfs_btable.h)

A table is `nb_bkts` buckets of `el_per_bkt` slots. A slot is named by its bucket and its index in the
bucket; it holds a digest, the zero digest marks it free, and the slots in use are chained in one
doubly linked element list.

`Listed bt l` is the invariant all operations share: the element list is the chain `l`, and `l` is
exactly the slots with a non-zero digest. `shfs_btable_feed` is the operation mounting and remounting
are made of, and `feed_spec` is all the rest of the development uses of it.

The number of a bucket is the one that the code computes, with its 32 bits; `HtableBucket` is about the
difference to the one that its comments describe. Walks over the element list and searches in a bucket are
at the end.
-/
import Minipython.Lib.DList
import Minipython.Shfs.Hash
import Mathlib.Data.List.Perm.Subperm

namespace Minipython.Shfs

open Minipython.Lib

/-- `struct htable_el`, by its bucket number and its index in the bucket. -/
abbrev HtableEl := Nat × Nat

/-- `struct htable` with the hash values of its buckets and the links of its elements. -/
structure Htable where
  nbBkts : Nat
  elPerBkt : Nat
  hlen : Nat
  h : HtableEl → Hash512
  links : Links HtableEl
  ends : Ends HtableEl

/-- `_htable_bkt_no`. The variable `h64` is declared `uint32_t`, so the 8-byte loads keep their low
four bytes only. -/
def htableBktNo (h : Hash512) (hlen nbBkts : Nat) : Nat :=
  match hlen with
  | 0 => 0
  | 1 => (h 0).toNat % nbBkts
  | 2 => Bytes.le h 0 2 % nbBkts
  | 3 => Bytes.le h 0 4 % 2 ^ 24 % nbBkts
  | 4 => Bytes.le h 0 4 % nbBkts
  | 5 => Bytes.le h 0 8 % u32Size % 2 ^ 40 % nbBkts
  | 6 => Bytes.le h 0 8 % u32Size % 2 ^ 48 % nbBkts
  | 7 => Bytes.le h 0 8 % u32Size % 2 ^ 56 % nbBkts
  | _ => Bytes.le h 0 8 % u32Size % nbBkts

/-- `alloc_htable`: cleared buckets and an empty element list. -/
def allocHtable (nbBkts elPerBkt hlen : Nat) : Htable where
  nbBkts := nbBkts
  elPerBkt := elPerBkt
  hlen := hlen
  h := fun _ => Bytes.zeros
  links := ⟨fun _ => none, fun _ => none⟩
  ends := DList.emptyEnds

namespace Htable

/-- Overwrite the digest of one slot. -/
def setHash (bt : Htable) (el : HtableEl) (v : Hash512) : Htable :=
  { bt with h := Function.update bt.h el v }

/-- Replace the link fields and the ends of the element list. -/
def setList (bt : Htable) (s : Links HtableEl × Ends HtableEl) : Htable :=
  { bt with links := s.1, ends := s.2 }

/-- The slot is free. -/
def isFree (bt : Htable) (el : HtableEl) : Bool := hashIsZero (bt.h el) bt.hlen

end Htable

/-- `htable_lookup`. -/
def htableLookup (bt : Htable) (h : Hash512) : Option HtableEl :=
  if hashIsZero h bt.hlen then none
  else
    let b := htableBktNo h bt.hlen bt.nbBkts
    ((List.range bt.elPerBkt).find? fun i => !hashCompare (bt.h (b, i)) h bt.hlen).map (b, ·)

/-- `shfs_btable_lookup`. -/
def shfsBtableLookup (bt : Htable) (h : Hash512) : Option HtableEl := htableLookup bt h

/-- `foreach_htable_el`: a list of slots without repetition ends within the number of slots. -/
def foreachHtableEl (bt : Htable) : List HtableEl :=
  DList.walk bt.links.next (bt.nbBkts * bt.elPerBkt) bt.ends.first

/-- The list half of `htable_add` and of `shfs_btable_feed`: link `el` to the back. -/
def htableLinkTail (bt : Htable) (el : HtableEl) : Except Fault Htable :=
  match DList.append bt.links bt.ends el with
  | none => .error .null
  | some s => .ok (bt.setList s)

/-- `htable_add`: the first free slot of the bucket, or nothing when the digest is zero or the bucket
is full. -/
def htableAdd (bt : Htable) (h : Hash512) : Except Fault (Option HtableEl × Htable) :=
  if hashIsZero h bt.hlen then .ok (none, bt)
  else
    let b := htableBktNo h bt.hlen bt.nbBkts
    match (List.range bt.elPerBkt).find? fun i => bt.isFree (b, i) with
    | none => .ok (none, bt)
    | some i => do
        let bt := bt.setHash (b, i) (hashCopy (bt.h (b, i)) h bt.hlen)
        let bt ← htableLinkTail bt (b, i)
        return (some (b, i), bt)

/-- The loop of `htable_lookup_add` from the index `i` on, with `n` slots left: the index of the digest,
or the first free one, where `e` was found before `i`. -/
def htableScan (bt : Htable) (h : Hash512) (b : Nat) : Nat → Nat → Option Nat → Nat ⊕ Option Nat
  | 0, _, e => .inr e
  | n + 1, i, e =>
      if hashCompare (bt.h (b, i)) h bt.hlen = false then .inl i
      else
        let e := if e = none ∧ bt.isFree (b, i) = true then some i else e
        htableScan bt h b n (i + 1) e

/-- `htable_lookup_add`: the slot, and `is_new`. -/
def htableLookupAdd (bt : Htable) (h : Hash512) : Except Fault (Option (HtableEl × Bool) × Htable) :=
  if hashIsZero h bt.hlen then .ok (none, bt)
  else
    let b := htableBktNo h bt.hlen bt.nbBkts
    match htableScan bt h b bt.elPerBkt 0 none with
    | .inl i => .ok (some ((b, i), false), bt)
    | .inr none => .ok (none, bt)
    | .inr (some e) => do
        let bt := bt.setHash (b, e) (hashCopy (bt.h (b, e)) h bt.hlen)
        let bt ← htableLinkTail bt (b, e)
        return (some ((b, e), true), bt)

/-- `shfs_btable_addentry`. -/
def shfsBtableAddentry (bt : Htable) (h : Hash512) : Except Fault (Option HtableEl × Htable) :=
  htableAdd bt h

/-- `htable_rm`. -/
def htableRm (bt : Htable) (el : HtableEl) : Htable :=
  let bt := bt.setList (DList.unlink bt.links bt.ends el)
  bt.setHash el (hashClear (bt.h el) bt.hlen)

/-- `htable_clear`. -/
def htableClear (bt : Htable) : Htable :=
  let bt := (foreachHtableEl bt).foldl (fun bt el => bt.setHash el (hashClear (bt.h el) bt.hlen)) bt
  bt.setList (bt.links, DList.emptyEnds)

/-- `shfs_btable_rmentry`. -/
def shfsBtableRmentry (bt : Htable) (h : Hash512) : Htable :=
  match htableLookup bt h with
  | some el => htableRm bt el
  | none => bt

/-- `shfs_btable_feed`: replace the digest of the slot with the total index `entIdx` and move the slot
to the back of the element list, or off the list when the new digest is zero. -/
def shfsBtableFeed (bt : Htable) (entIdx : Nat) (h : Hash512) : Except Fault (HtableEl × Htable) :=
  let bktIdx := (entIdx / bt.elPerBkt) % u32Size
  let elIdxBkt := (entIdx % bt.elPerBkt) % u32Size
  if bktIdx < bt.nbBkts then do
    let el := (bktIdx, elIdxBkt)
    -- a previous entry is unlinked; its own link fields keep their values
    let bt := if bt.isFree el then bt else bt.setList (DList.unlink bt.links bt.ends el)
    let bt := bt.setHash el (hashCopy (bt.h el) h bt.hlen)
    if hashIsZero h bt.hlen then return (el, bt)
    let bt ← htableLinkTail bt el
    return (el, bt)
  else .error .assert

/-! ## The bucket of a digest -/

/-- The bucket is decided by the digest bytes that count. -/
theorem htableBktNo_congr {h h' : Hash512} {hlen : Nat} (nbBkts : Nat) (hs : SameHash hlen h h') :
    htableBktNo h hlen nbBkts = htableBktNo h' hlen nbBkts := by
  have low : ∀ k, k ≤ hlen → Bytes.le h 0 k = Bytes.le h' 0 k := fun k hk =>
    Bytes.le_congr k fun i hi => by simpa using hs i (by omega)
  have h3 : ∀ g : Hash512, Bytes.le g 0 4 % 2 ^ 24 = Bytes.le g 0 3 := fun g => by
    simpa using Bytes.le_mod g 0 (k := 3) (n := 4) (by omega)
  have h4 : ∀ g : Hash512, Bytes.le g 0 8 % u32Size = Bytes.le g 0 4 := fun g => by
    simpa [u32Size] using Bytes.le_mod g 0 (k := 4) (n := 8) (by omega)
  match hlen, hs, low with
  | 0, _, _ => rfl
  | 1, hs, _ => simp only [htableBktNo, hs 0 Nat.one_pos]
  | 2, _, low => simp only [htableBktNo, low 2 le_rfl]
  | 3, _, low => simp only [htableBktNo, h3, low 3 le_rfl]
  | 4, _, low => simp only [htableBktNo, low 4 le_rfl]
  | 5, _, low => simp only [htableBktNo, h4, low 4 (by omega)]
  | 6, _, low => simp only [htableBktNo, h4, low 4 (by omega)]
  | 7, _, low => simp only [htableBktNo, h4, low 4 (by omega)]
  | n + 8, _, low => simp only [htableBktNo, h4, low 4 (by omega)]

theorem htableBktNo_lt (h : Hash512) (hlen : Nat) {nbBkts : Nat} (hb : 0 < nbBkts) :
    htableBktNo h hlen nbBkts < nbBkts := by
  match hlen with
  | 0 => exact hb
  | 1 => exact Nat.mod_lt _ hb
  | 2 => exact Nat.mod_lt _ hb
  | 3 => exact Nat.mod_lt _ hb
  | 4 => exact Nat.mod_lt _ hb
  | 5 => exact Nat.mod_lt _ hb
  | 6 => exact Nat.mod_lt _ hb
  | 7 => exact Nat.mod_lt _ hb
  | n + 8 => exact Nat.mod_lt _ hb

/-! ## The element list -/

namespace Htable

/-- The slot exists. -/
def InRange (bt : Htable) (el : HtableEl) : Prop := el.1 < bt.nbBkts ∧ el.2 < bt.elPerBkt

/-- The element list is `l`, and `l` is the slots in use. -/
structure Listed (bt : Htable) (l : List HtableEl) : Prop where
  rep : DList.Rep bt.links bt.ends l
  mem : ∀ el, el ∈ l ↔ bt.InRange el ∧ bt.isFree el = false

/-- The slot with the total index `i`. -/
def slot (bt : Htable) (i : Nat) : HtableEl := (i / bt.elPerBkt, i % bt.elPerBkt)

theorem slot_inRange {bt : Htable} {i : Nat} (h : i < bt.nbBkts * bt.elPerBkt) :
    bt.InRange (bt.slot i) := by
  have hp : 0 < bt.elPerBkt := Nat.pos_of_ne_zero fun h0 => by simp [h0] at h
  exact ⟨(Nat.div_lt_iff_lt_mul hp).2 h, Nat.mod_lt _ hp⟩

theorem slot_injective {bt : Htable} {i j : Nat} (h : bt.slot i = bt.slot j) : i = j := by
  simp only [slot, Prod.mk.injEq] at h
  rw [← Nat.div_add_mod i bt.elPerBkt, ← Nat.div_add_mod j bt.elPerBkt, h.1, h.2]

/-- Every slot has a total index. -/
theorem slot_surjective {bt : Htable} {el : HtableEl} (h : bt.InRange el) :
    ∃ i, i < bt.nbBkts * bt.elPerBkt ∧ bt.slot i = el := by
  obtain ⟨h1, h2⟩ := h
  have hp : 0 < bt.elPerBkt := by omega
  refine ⟨bt.elPerBkt * el.1 + el.2, ?_, ?_⟩
  · calc bt.elPerBkt * el.1 + el.2 < bt.elPerBkt * el.1 + bt.elPerBkt := by omega
      _ = bt.elPerBkt * (el.1 + 1) := by ring
      _ ≤ bt.elPerBkt * bt.nbBkts := Nat.mul_le_mul_left _ h1
      _ = bt.nbBkts * bt.elPerBkt := Nat.mul_comm _ _
  · rw [slot, Nat.mul_add_div hp, Nat.mul_add_mod, Nat.div_eq_of_lt h2, Nat.mod_eq_of_lt h2]
    rfl

/-- The dimensions of a table, which no operation changes. -/
def SameGeom (bt bt' : Htable) : Prop :=
  bt'.nbBkts = bt.nbBkts ∧ bt'.elPerBkt = bt.elPerBkt ∧ bt'.hlen = bt.hlen

theorem SameGeom.refl (bt : Htable) : SameGeom bt bt := ⟨rfl, rfl, rfl⟩

theorem SameGeom.trans {a b c : Htable} (h : SameGeom a b) (h' : SameGeom b c) : SameGeom a c :=
  ⟨h'.1.trans h.1, h'.2.1.trans h.2.1, h'.2.2.trans h.2.2⟩

theorem SameGeom.slot {a b : Htable} (h : SameGeom a b) (i : Nat) : b.slot i = a.slot i := by
  simp [Htable.slot, h.2.1]

theorem SameGeom.inRange {a b : Htable} (h : SameGeom a b) (el : HtableEl) :
    b.InRange el ↔ a.InRange el := by
  simp [InRange, h.1, h.2.1]

theorem listed_alloc (nbBkts elPerBkt hlen : Nat) :
    Listed (allocHtable nbBkts elPerBkt hlen) [] :=
  ⟨DList.rep_empty _, fun el => by simp [isFree, allocHtable, hashIsZero_zeros]⟩

/-- The two indices of a total index that is in range are not truncated. -/
theorem slot_trunc {bt : Htable} {i : Nat} (hi : i < bt.nbBkts * bt.elPerBkt)
    (hb : bt.nbBkts ≤ u32Size) (he : bt.elPerBkt ≤ u32Size) :
    ((i / bt.elPerBkt) % u32Size, (i % bt.elPerBkt) % u32Size) = bt.slot i := by
  obtain ⟨h1, h2⟩ := slot_inRange hi
  simp only [slot] at *
  rw [Nat.mod_eq_of_lt (by omega), Nat.mod_eq_of_lt (by omega)]

end Htable

open Htable

/-- The tail link of a slot that is not on the list. -/
theorem htableLinkTail_spec {bt : Htable} {l : List HtableEl} {el : HtableEl}
    (hrep : DList.Rep bt.links bt.ends l) (hel : el ∉ l) :
    ∃ bt', htableLinkTail bt el = .ok bt' ∧ DList.Rep bt'.links bt'.ends (l ++ [el]) ∧
      bt'.h = bt.h ∧ SameGeom bt bt' := by
  obtain ⟨L, E, happ, hrep', -⟩ := hrep.append hel
  exact ⟨bt.setList (L, E), by simp [htableLinkTail, happ], hrep', rfl, rfl, rfl, rfl⟩

/-- Taking a listed slot off the list. -/
theorem rep_unlink_filter {bt : Htable} {l : List HtableEl} {el : HtableEl}
    (hrep : DList.Rep bt.links bt.ends l) (hel : el ∈ l) :
    DList.Rep (DList.unlink bt.links bt.ends el).1 (DList.unlink bt.links bt.ends el).2
      (l.filter (· ≠ el)) := by
  obtain ⟨l₁, l₂, rfl⟩ := List.append_of_mem hel
  have hnd := List.nodup_append.1 hrep.nodup
  have h1 : l₁.filter (· ≠ el) = l₁ := List.filter_eq_self.2 fun a ha => by
    simpa using hnd.2.2 a ha el (by simp)
  have h2 : l₂.filter (· ≠ el) = l₂ := List.filter_eq_self.2 fun a ha => by
    have := (List.nodup_cons.1 hnd.2.1).1
    simpa using fun he : a = el => this (he ▸ ha)
  rw [List.filter_append, List.filter_cons_of_neg (by simp), h1, h2]
  exact hrep.unlink

/-- What feeding a slot does: the slot holds the new digest and is last in the list if that digest is
not zero, off the list otherwise; every other slot keeps its digest and its place. -/
theorem feed_spec {bt : Htable} {l : List HtableEl} {i : Nat} (hl : Listed bt l) (h : Hash512)
    (hi : i < bt.nbBkts * bt.elPerBkt) (hb : bt.nbBkts ≤ u32Size) (he : bt.elPerBkt ≤ u32Size) :
    ∃ bt', shfsBtableFeed bt i h = .ok (bt.slot i, bt') ∧ SameGeom bt bt' ∧
      bt'.h = Function.update bt.h (bt.slot i) (hashCopy (bt.h (bt.slot i)) h bt.hlen) ∧
      Listed bt' (l.filter (· ≠ bt.slot i) ++ if hashIsZero h bt.hlen then [] else [bt.slot i]) := by
  have hin := slot_inRange hi
  have htr := Prod.mk.inj (slot_trunc hi hb he)
  set el := bt.slot i with hel
  -- the list without the slot, whether it was on it or not
  obtain ⟨bt₁, hbt₁, hrep₁, hh₁, hg₁⟩ : ∃ bt₁ : Htable,
      (if bt.isFree el then bt else bt.setList (DList.unlink bt.links bt.ends el)) = bt₁ ∧
        DList.Rep bt₁.links bt₁.ends (l.filter (· ≠ el)) ∧ bt₁.h = bt.h ∧ SameGeom bt bt₁ := by
    by_cases hz : bt.isFree el = true
    · refine ⟨bt, by simp [hz], ?_, rfl, SameGeom.refl bt⟩
      have : el ∉ l := fun hm => by simp [((hl.mem el).1 hm).2] at hz
      rw [List.filter_eq_self.2]
      · exact hl.rep
      · intro a ha
        simpa using fun h0 : a = el => this (h0 ▸ ha)
    · have hm : el ∈ l := (hl.mem el).2 ⟨hin, by simpa using hz⟩
      exact ⟨bt.setList (DList.unlink bt.links bt.ends el), by simp [hz],
        rep_unlink_filter hl.rep hm, rfl, rfl, rfl, rfl⟩
  have hnot : el ∉ l.filter (· ≠ el) := by simp
  have hlen₁ : bt₁.hlen = bt.hlen := hg₁.2.2
  have hfeed : shfsBtableFeed bt i h =
      (let bt₂ := bt₁.setHash el (hashCopy (bt.h el) h bt.hlen)
       if hashIsZero h bt.hlen then .ok (el, bt₂) else (htableLinkTail bt₂ el).map (el, ·)) := by
    have hlt : i / bt.elPerBkt < bt.nbBkts := hin.1
    have hel' : (i / bt.elPerBkt, i % bt.elPerBkt) = el := rfl
    unfold shfsBtableFeed
    simp only [htr.1, htr.2, hel']
    rw [if_pos hlt]
    simp only [hbt₁, hh₁, hlen₁, setHash]
    split
    · rfl
    · cases htableLinkTail _ el <;> rfl
  have hupd : ∀ x, hashIsZero (Function.update bt.h el (hashCopy (bt.h el) h bt.hlen) x) bt.hlen =
      if x = el then hashIsZero h bt.hlen else bt.isFree x := by
    intro x
    by_cases hx : x = el <;> simp [hx, Htable.isFree]
  by_cases hz : hashIsZero h bt.hlen = true
  · refine ⟨bt₁.setHash el (hashCopy (bt.h el) h bt.hlen), by simp [hfeed, hz], ?_, ?_, ?_⟩
    · exact hg₁
    · simp [setHash, hh₁]
    · refine ⟨by simpa [hz, setHash] using hrep₁, fun x => ?_⟩
      have := hl.mem x
      have hr := hg₁.inRange x
      simp only [InRange, setHash, Htable.isFree, hh₁, hlen₁, hupd] at *
      by_cases hx : x = el <;> simp [hx, hz, this, hr]
  · simp only [Bool.not_eq_true] at hz
    have hrep₂ : DList.Rep (bt₁.setHash el (hashCopy (bt.h el) h bt.hlen)).links
        (bt₁.setHash el (hashCopy (bt.h el) h bt.hlen)).ends (l.filter (· ≠ el)) := hrep₁
    obtain ⟨bt', hlink, hrep', hh', hg'⟩ := htableLinkTail_spec hrep₂ hnot
    have hg : SameGeom bt bt' := hg₁.trans ⟨hg'.1, hg'.2.1, hg'.2.2⟩
    have hh : bt'.h = Function.update bt.h el (hashCopy (bt.h el) h bt.hlen) := by
      rw [hh']
      simp [setHash, hh₁]
    refine ⟨bt', by simp [hfeed, hz, hlink, Except.map], hg, hh, by simpa [hz] using hrep', fun x => ?_⟩
    have := hl.mem x
    have hr := hg.inRange x
    simp only [Htable.isFree, hh, hg.2.2, hupd, hr]
    by_cases hx : x = el
    · subst hx
      simp [hz, hin]
    · simp [hx, hz, this, Htable.isFree]

/-- Feeding the first index behind the table fails the assertion. -/
theorem feed_end {bt : Htable} (h : Hash512) (hp : 0 < bt.elPerBkt) (hb : bt.nbBkts < u32Size) :
    shfsBtableFeed bt (bt.nbBkts * bt.elPerBkt) h = .error .assert := by
  unfold shfsBtableFeed
  simp only
  rw [Nat.mul_div_cancel _ hp, Nat.mod_eq_of_lt hb, if_neg (lt_irrefl _)]

/-! ## Walking and searching -/

/-- A list of slots without repetition is at most as long as the table. -/
theorem Htable.Listed.length_le {bt : Htable} {l : List HtableEl} (h : Listed bt l) :
    l.length ≤ bt.nbBkts * bt.elPerBkt := by
  have hsub : l ⊆ (List.range (bt.nbBkts * bt.elPerBkt)).map bt.slot := fun el hel => by
    obtain ⟨i, hi, rfl⟩ := slot_surjective ((h.mem el).1 hel).1
    exact List.mem_map.2 ⟨i, List.mem_range.2 hi, rfl⟩
  simpa using (List.subperm_of_subset h.rep.nodup hsub).length_le

/-- `foreach_htable_el` visits the element list. -/
theorem foreachHtableEl_eq {bt : Htable} {l : List HtableEl} (h : Listed bt l) :
    foreachHtableEl bt = l :=
  DList.walk_traverses h.rep.traverses.1 h.length_le

/-- A lookup finds a slot in use. -/
theorem htableLookup_used {bt : Htable} {l : List HtableEl} (hl : Listed bt l) (hb : 0 < bt.nbBkts)
    {h : Hash512} {el : HtableEl} (hf : htableLookup bt h = some el) : el ∈ l := by
  unfold htableLookup at hf
  by_cases hz : hashIsZero h bt.hlen = true
  · simp [hz] at hf
  rw [if_neg hz] at hf
  obtain ⟨i, hfind, rfl⟩ := Option.map_eq_some_iff.1 hf
  have hi : i < bt.elPerBkt := by simpa using List.mem_of_find?_eq_some hfind
  have hsame : SameHash bt.hlen (bt.h (htableBktNo h bt.hlen bt.nbBkts, i)) h := by
    have := List.find?_some hfind
    exact hashCompare_eq_false.1 (by simpa using this)
  refine (hl.mem _).2 ⟨⟨htableBktNo_lt h bt.hlen hb, hi⟩, ?_⟩
  show hashIsZero (bt.h _) bt.hlen = false
  rw [hashIsZero_congr hsame]
  simpa using hz

end Minipython.Shfs
