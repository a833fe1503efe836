/-
# Minipython.Shfs.HtableMap — looking up, adding and removing digests (htable.h, shfs_btable.h)

What a lookup answers depends on the digests in the slots of one bucket only. Adding a digest that was
not found makes the lookup find the new slot, and leaves every other lookup as it is.
-/
import Minipython.Shfs.Htable
import Mathlib.Data.List.Find

namespace Minipython.Shfs

open Minipython.Lib
open Htable

namespace Htable

/-- Two tables hold the same digests in their slots. -/
def SameDigests (bt bt' : Htable) : Prop :=
  ∀ el, bt.InRange el → SameHash bt.hlen (bt'.h el) (bt.h el)

theorem SameGeom.symm {a b : Htable} (h : SameGeom a b) : SameGeom b a :=
  ⟨h.1.symm, h.2.1.symm, h.2.2.symm⟩

end Htable

section Lookup

variable {bt bt' : Htable} {h h' : Hash512} {el : HtableEl} {l : List HtableEl}

/-- What a lookup has found. -/
theorem htableLookup_some (hb : 0 < bt.nbBkts) (hf : htableLookup bt h = some el) :
    bt.InRange el ∧ SameHash bt.hlen (bt.h el) h ∧ hashIsZero h bt.hlen = false ∧
      el.1 = htableBktNo h bt.hlen bt.nbBkts := by
  unfold htableLookup at hf
  split at hf
  · cases hf
  · rename_i hz
    obtain ⟨i, hfind, rfl⟩ := Option.map_eq_some_iff.1 hf
    have hi : i < bt.elPerBkt := List.mem_range.1 (List.mem_of_find?_eq_some hfind)
    have hsame := List.find?_some hfind
    refine ⟨⟨htableBktNo_lt h bt.hlen hb, hi⟩, ?_, by simpa using hz, rfl⟩
    exact hashCompare_eq_false.1 (by simpa using hsame)

/-- A slot that a lookup has found is in use. -/
theorem htableLookup_not_free (hb : 0 < bt.nbBkts) (hf : htableLookup bt h = some el) :
    bt.isFree el = false := by
  obtain ⟨-, hsame, hz, -⟩ := htableLookup_some hb hf
  unfold Htable.isFree
  rw [hashIsZero_congr hsame]
  exact hz

/-- A lookup that finds nothing. -/
theorem htableLookup_none (hz : hashIsZero h bt.hlen = false) :
    htableLookup bt h = none ↔
      ∀ i < bt.elPerBkt, ¬ SameHash bt.hlen (bt.h (htableBktNo h bt.hlen bt.nbBkts, i)) h := by
  unfold htableLookup
  rw [if_neg (by simp [hz]), Option.map_eq_none_iff, List.find?_eq_none]
  refine ⟨fun hall i hi hsame => ?_, fun hall i hi hne => ?_⟩
  · have := hall i (List.mem_range.2 hi)
    rw [hashCompare_eq_false.2 hsame] at this
    exact this rfl
  · refine hall i (List.mem_range.1 hi) (hashCompare_eq_false.1 ?_)
    simpa using hne

/-- A lookup depends on the digests of the slots and on the digest looked for. -/
theorem htableLookup_congr (hg : SameGeom bt bt') (hs : SameDigests bt bt')
    (hh : SameHash bt.hlen h h') (hb : 0 < bt.nbBkts) : htableLookup bt' h = htableLookup bt h' := by
  obtain ⟨hn, he, hl⟩ := hg
  unfold htableLookup
  rw [hl, hn, he, hashIsZero_congr hh, htableBktNo_congr bt.nbBkts hh]
  split
  · rfl
  show Option.map _ (List.find? _ _) = Option.map _ (List.find? _ _)
  congr 1
  refine List.find?_congr fun i hi => ?_
  have hin : bt.InRange (htableBktNo h' bt.hlen bt.nbBkts, i) :=
    ⟨htableBktNo_lt h' bt.hlen hb, List.mem_range.1 hi⟩
  rw [hashCompare_congr (hs _ hin) hh]

end Lookup

/-! ## Adding -/

/-- What `htable_add` does when it adds. -/
structure Added (bt : Htable) (l : List HtableEl) (h : Hash512) (el : HtableEl) (bt' : Htable) :
    Prop where
  inRange : bt.InRange el
  free : bt.isFree el = true
  bucket : el.1 = htableBktNo h bt.hlen bt.nbBkts
  nonzero : hashIsZero h bt.hlen = false
  geom : SameGeom bt bt'
  digests : bt'.h = Function.update bt.h el (hashCopy (bt.h el) h bt.hlen)
  listed : bt'.Listed (l ++ [el])

/-- The bucket of a digest has a free slot. -/
def HasRoom (bt : Htable) (h : Hash512) : Prop :=
  hashIsZero h bt.hlen = false ∧
    ∃ i < bt.elPerBkt, bt.isFree (htableBktNo h bt.hlen bt.nbBkts, i) = true

/-- `htable_add` adds a digest exactly if it is not zero and its bucket has room. -/
theorem htableAdd_spec {bt : Htable} {l : List HtableEl} (hl : bt.Listed l) (hb : 0 < bt.nbBkts)
    (h : Hash512) :
    (¬ HasRoom bt h ∧ htableAdd bt h = .ok (none, bt)) ∨
      HasRoom bt h ∧ ∃ el bt', htableAdd bt h = .ok (some el, bt') ∧ Added bt l h el bt' := by
  unfold htableAdd
  split
  · rename_i hz
    refine .inl ⟨fun hroom => ?_, rfl⟩
    rw [hroom.1] at hz
    cases hz
  · rename_i hz
    have hz : hashIsZero h bt.hlen = false := by simpa using hz
    simp only
    cases hfind : (List.range bt.elPerBkt).find? fun i =>
        bt.isFree (htableBktNo h bt.hlen bt.nbBkts, i) with
    | none =>
        refine .inl ⟨fun ⟨_, i, hi, hfree⟩ => ?_, rfl⟩
        exact List.find?_eq_none.1 hfind i (List.mem_range.2 hi) hfree
    | some i =>
        have hi : i < bt.elPerBkt := List.mem_range.1 (List.mem_of_find?_eq_some hfind)
        have hfree : bt.isFree (htableBktNo h bt.hlen bt.nbBkts, i) = true := by
          have hfound := List.find?_some hfind
          exact hfound
        have hin : bt.InRange (htableBktNo h bt.hlen bt.nbBkts, i) := ⟨htableBktNo_lt h bt.hlen hb, hi⟩
        refine .inr ⟨⟨hz, i, hi, hfree⟩, (htableBktNo h bt.hlen bt.nbBkts, i), ?_⟩
        set el : HtableEl := (htableBktNo h bt.hlen bt.nbBkts, i)
        have hel : el ∉ l := fun hm => by
          have := ((hl.mem el).1 hm).2
          rw [hfree] at this
          cases this
        have hrep : DList.Rep (bt.setHash el (hashCopy (bt.h el) h bt.hlen)).links
            (bt.setHash el (hashCopy (bt.h el) h bt.hlen)).ends l := hl.rep
        obtain ⟨bt', hlink, hrep', hh', hg'⟩ := htableLinkTail_spec hrep hel
        have hg : SameGeom bt bt' := hg'
        refine ⟨bt', ?_, hin, hfree, rfl, hz, hg, hh', hrep', fun x => ?_⟩
        · show (htableLinkTail (bt.setHash el _) el >>= fun bt => _) = _
          rw [hlink]
          rfl
        · have hx := hl.mem x
          have hr := hg.inRange x
          rw [List.mem_append, List.mem_singleton, hx, hr]
          unfold Htable.isFree
          rw [hh', hg.2.2]
          show _ ↔ _ ∧ hashIsZero (Function.update bt.h el (hashCopy (bt.h el) h bt.hlen) x) bt.hlen = false
          by_cases hxe : x = el
          · rw [hxe, Function.update_self, hashIsZero_hashCopy]
            exact ⟨fun _ => ⟨hin, hz⟩, fun _ => .inr rfl⟩
          · rw [Function.update_of_ne hxe]
            exact ⟨fun hor => hor.resolve_right hxe, .inl⟩

section Added

variable {bt bt' : Htable} {l : List HtableEl} {h h' : Hash512} {el : HtableEl}

/-- The new slot is found. -/
theorem Added.lookup_self (ha : Added bt l h el bt') (hnone : htableLookup bt h = none) :
    htableLookup bt' h = some el := by
  obtain ⟨hn, he, hl⟩ := ha.geom
  have hslot : bt'.h el = hashCopy (bt.h el) h bt.hlen := by
    rw [ha.digests]
    exact Function.update_self _ _ _
  have hmiss := (htableLookup_none ha.nonzero).1 hnone
  unfold htableLookup
  rw [hl, hn, he, if_neg (by simp [ha.nonzero])]
  have hfind : ((List.range bt.elPerBkt).find? fun i =>
      !hashCompare (bt'.h (htableBktNo h bt.hlen bt.nbBkts, i)) h bt.hlen) = some el.2 := by
    have hpred : ∀ i < bt.elPerBkt,
        (!hashCompare (bt'.h (htableBktNo h bt.hlen bt.nbBkts, i)) h bt.hlen) = decide (i = el.2) := by
      intro i hi
      by_cases hie : i = el.2
      · have heq : (htableBktNo h bt.hlen bt.nbBkts, i) = el := by
          rw [hie, ← ha.bucket]
        rw [heq, hslot, hashCompare_eq_false.2 (hashCopy_same _ _ _), decide_eq_true hie]
        rfl
      · have hne : (htableBktNo h bt.hlen bt.nbBkts, i) ≠ el := fun heq => hie (heq ▸ rfl)
        rw [ha.digests, Function.update_of_ne hne, decide_eq_false hie]
        have hdiff : hashCompare (bt.h (htableBktNo h bt.hlen bt.nbBkts, i)) h bt.hlen = true := by
          rw [← Bool.not_eq_false]
          exact fun hc => hmiss i hi (hashCompare_eq_false.1 hc)
        rw [hdiff]
        rfl
    rw [List.find?_congr fun i hi => hpred i (List.mem_range.1 hi)]
    cases hf : (List.range bt.elPerBkt).find? fun i => decide (i = el.2) with
    | none =>
        have := List.find?_eq_none.1 hf el.2 (List.mem_range.2 ha.inRange.2)
        exact absurd (decide_eq_true rfl) this
    | some i =>
        have hi := List.find?_some hf
        rw [of_decide_eq_true hi]
  show Option.map _ (List.find? _ _) = some el
  rw [hfind, ← ha.bucket]
  rfl

end Added

/-! ## Removing -/

/-- What `htable_rm` does to a slot in use. -/
theorem htableRm_spec {bt : Htable} {l : List HtableEl} {el : HtableEl} (hl : bt.Listed l)
    (hel : el ∈ l) : SameGeom bt (htableRm bt el) ∧
      (htableRm bt el).h = Function.update bt.h el (hashClear (bt.h el) bt.hlen) ∧
      (htableRm bt el).Listed (l.filter (· ≠ el)) := by
  have hh : (htableRm bt el).h = Function.update bt.h el (hashClear (bt.h el) bt.hlen) := rfl
  refine ⟨⟨rfl, rfl, rfl⟩, hh, rep_unlink_filter hl.rep hel, fun x => ?_⟩
  have hx := hl.mem x
  have hr : (htableRm bt el).InRange x ↔ bt.InRange x := Iff.rfl
  rw [List.mem_filter, decide_eq_true_iff, hx, hr]
  unfold Htable.isFree
  rw [hh]
  show _ ↔ _ ∧ hashIsZero (Function.update bt.h el (hashClear (bt.h el) bt.hlen) x) bt.hlen = false
  by_cases hxe : x = el
  · rw [hxe, Function.update_self, hashIsZero_hashClear]
    exact ⟨fun h => absurd rfl h.2, fun h => absurd h.2 (by decide)⟩
  · rw [Function.update_of_ne hxe]
    exact ⟨fun h => h.1, fun h => ⟨h, hxe⟩⟩

end Minipython.Shfs
