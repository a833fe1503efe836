/-
# Minipython.Shfs.HtableCalls — the hash table as a finite map (htable.h)

A table is called with `htable_lookup_add`, `htable_rm` on slots in use and `htable_clear`, in any order.
Removals leave holes that later additions reuse, and the zero digest marks a free slot. Still a lookup
answers what the history of the calls says: the slot that the digest was last bound to (`Tracks`).

The history is a list of calls, and `BoundedMap` says what it has bound: a digest is bound to the slot that
the last call for it answered, until it is removed or the table is cleared. Digests are compared by their
first `hlen` bytes. A call for a digest that is not bound finds a free slot of its bucket, unless as many
digests as a bucket has slots are bound to it already; then it fails with `ENOBUFS` and changes nothing
(`BoundedMap.Answers`).

`htable_rm` is called on a slot in use. That is its contract: the code asserts nothing, and the callers take
the slot from a lookup.
-/
import Minipython.Lib.BoundedMap
import Minipython.Lib.Machine
import Minipython.Shfs.HtableMap

namespace Minipython.Shfs

open Minipython.Lib
open Htable

/-- A table with the calls so far, the last one first. -/
structure HtableLog where
  table : Htable
  calls : List (BoundedMap.Call Hash512 HtableEl)

inductive HtableCall where
  | lookupAdd (h : Hash512)
  | rm (el : HtableEl)
  | clear

/-- `htable_rm` is called on slots that hold a digest. -/
def htableEnabled (s : HtableLog) : HtableCall → Prop
  | .rm el => s.table.InRange el ∧ s.table.isFree el = false
  | _ => True

def htableNext (s : HtableLog) : HtableCall → Except Fault HtableLog
  | .lookupAdd h => do
      let (x, bt) ← htableLookupAdd s.table h
      return ⟨bt, .lookupAdd h x :: s.calls⟩
  | .rm el => .ok ⟨htableRm s.table el, .rm el :: s.calls⟩
  | .clear => .ok ⟨htableClear s.table, .clear :: s.calls⟩

/-- The table under its callers. -/
def htableCalls : Machine HtableLog HtableCall Fault := ⟨htableEnabled, htableNext⟩

instance (bt : Htable) (el : HtableEl) : Decidable (bt.InRange el) :=
  inferInstanceAs (Decidable (_ ∧ _))

instance (s : HtableLog) (e : HtableCall) : Decidable (htableCalls.Enabled s e) :=
  match e with
  | .rm el => inferInstanceAs (Decidable (s.table.InRange el ∧ s.table.isFree el = false))
  | .lookupAdd _ | .clear => inferInstanceAs (Decidable True)

instance (hlen : Nat) : DecidableRel (SameHash hlen) := fun h0 h1 =>
  inferInstanceAs (Decidable (∀ i, i < hlen → h0 i = h1 i))

/-- Digests count by their first `hlen` bytes. -/
def digests (hlen nbBkts : Nat) : BoundedMap.Keys Hash512 where
  same := SameHash hlen
  decSame := inferInstance
  void := fun h => hashIsZero h hlen = true
  bucket := fun h => htableBktNo h hlen nbBkts
  equiv := ⟨SameHash.refl, SameHash.symm, SameHash.trans⟩
  void_iff := fun _ _ hs => by rw [hashIsZero_congr hs]
  bucket_eq := fun _ _ hs => htableBktNo_congr nbBkts hs

/-! ## One call -/

section Calls

variable {bt bt' : Htable} {l : List HtableEl} {h : Hash512} {el : HtableEl}

/-- The loop finds the digest, or else the first free slot of the bucket. -/
theorem htableScan_eq (bt : Htable) (h : Hash512) (b n i : Nat) (e : Option Nat) :
    htableScan bt h b n i e =
      match (List.range' i n).find? fun k => !hashCompare (bt.h (b, k)) h bt.hlen with
      | some k => .inl k
      | none => .inr (e.or ((List.range' i n).find? fun k => bt.isFree (b, k))) := by
  induction n generalizing i e with
  | zero =>
      rw [htableScan]
      simp
  | succ n ih =>
      rw [htableScan, List.range'_succ]
      by_cases hfound : hashCompare (bt.h (b, i)) h bt.hlen = false
      · rw [if_pos hfound, List.find?_cons_of_pos (by simp [hfound])]
      · rw [if_neg hfound, ih, List.find?_cons_of_neg (by simpa using hfound)]
        split
        · rfl
        · cases e with
          | some k => rw [if_neg (fun hh => by cases hh.1)]; rfl
          | none =>
              by_cases hfree : bt.isFree (b, i) = true
              · rw [if_pos ⟨rfl, hfree⟩]
                simp [hfree]
              · rw [if_neg fun hh => hfree hh.2]
                simp [hfree]

/-- `htable_lookup_add` is a lookup, and an addition if that finds nothing. -/
theorem htableLookupAdd_eq (bt : Htable) (h : Hash512) : htableLookupAdd bt h =
    match htableLookup bt h with
    | some el => .ok (some (el, false), bt)
    | none => (htableAdd bt h).map fun x => (x.1.map (·, true), x.2) := by
  unfold htableLookupAdd htableLookup htableAdd
  by_cases hz : hashIsZero h bt.hlen = true
  · simp only [if_pos hz]
    rfl
  · simp only [if_neg hz, htableScan_eq, ← List.range_eq_range', Option.none_or]
    cases hfind : (List.range bt.elPerBkt).find? fun k =>
        !hashCompare (bt.h (htableBktNo h bt.hlen bt.nbBkts, k)) h bt.hlen with
    | some i => rfl
    | none =>
        simp only [Option.map_none]
        cases hfree : (List.range bt.elPerBkt).find? fun k =>
            bt.isFree (htableBktNo h bt.hlen bt.nbBkts, k) with
        | none => rfl
        | some i =>
            simp only
            cases htableLinkTail _ _ <;> rfl

/-- `htable_clear` empties the table. -/
theorem htableClear_spec (hl : bt.Listed l) : SameGeom bt (htableClear bt) ∧
    (htableClear bt).Listed [] := by
  have hfold : ∀ (k : List HtableEl) (u : Htable),
      SameGeom u (k.foldl (fun bt el => bt.setHash el (hashClear (bt.h el) bt.hlen)) u) ∧
      ∀ x, (k.foldl (fun bt el => bt.setHash el (hashClear (bt.h el) bt.hlen)) u).isFree x =
        (decide (x ∈ k) || u.isFree x) := by
    intro k
    induction k with
    | nil => exact fun u => ⟨SameGeom.refl u, fun x => by simp⟩
    | cons y k ih =>
        intro u
        obtain ⟨hg, hfree⟩ := ih (u.setHash y (hashClear (u.h y) u.hlen))
        refine ⟨⟨hg.1, hg.2.1, hg.2.2⟩, fun x => ?_⟩
        rw [List.foldl_cons, hfree x]
        by_cases hx : x = y
        · subst hx
          simp [Htable.isFree, Htable.setHash, hashIsZero_hashClear]
        · simp [Htable.isFree, Htable.setHash, hx]
  obtain ⟨hg, hfree⟩ := hfold (foreachHtableEl bt) bt
  rw [foreachHtableEl_eq hl] at hg hfree
  unfold htableClear
  rw [foreachHtableEl_eq hl]
  refine ⟨⟨hg.1, hg.2.1, hg.2.2⟩, DList.rep_empty _, fun x => ?_⟩
  have hx := hfree x
  have hin := hg.inRange x
  constructor
  · intro hm
    cases hm
  · rintro ⟨hr, hf⟩
    have hf' : ((l.foldl (fun bt el => bt.setHash el (hashClear (bt.h el) bt.hlen)) bt)).isFree x = false := hf
    rw [hx, Bool.or_eq_false_iff] at hf'
    have hmem := (hl.mem x).2 ⟨hin.1 hr, hf'.2⟩
    exact absurd hmem (of_decide_eq_false hf'.1)

end Calls

/-! ## Runs -/

namespace Htable

/-- The digest in a slot in use. -/
def slots (bt : Htable) (el : HtableEl) : Option Hash512 :=
  if bt.InRange el ∧ bt.isFree el = false then some (bt.h el) else none

end Htable

/-- The table holds the digests that are bound by the calls, each in its bucket. -/
structure Tracks (nbBkts elPerBkt hlen : Nat) (s : HtableLog) : Prop where
  geom : SameGeom (allocHtable nbBkts elPerBkt hlen) s.table
  listed : ∃ l, s.table.Listed l
  bucket : ∀ el, s.table.InRange el → s.table.isFree el = false →
    el.1 = htableBktNo (s.table.h el) hlen nbBkts
  holds : BoundedMap.Holds (digests hlen nbBkts) s.table.slots s.calls

section Tracks

variable {nbBkts elPerBkt hlen : Nat} {s s' : HtableLog} {bt : Htable} {h : Hash512} {el : HtableEl}

theorem slots_eq_some {k : Hash512} : bt.slots el = some k ↔
    bt.InRange el ∧ bt.isFree el = false ∧ bt.h el = k := by
  unfold Htable.slots
  split
  · rename_i hu
    rw [Option.some.injEq]
    exact ⟨fun hk => ⟨hu.1, hu.2, hk⟩, fun hk => hk.2.2⟩
  · rename_i hu
    exact ⟨fun hk => (by cases hk), fun hk => absurd ⟨hk.1, hk.2.1⟩ hu⟩

theorem slots_eq_none : bt.slots el = none ↔ ¬ (bt.InRange el ∧ bt.isFree el = false) := by
  unfold Htable.slots
  split
  · rename_i hu
    exact ⟨fun hk => (by cases hk), fun hk => absurd hu hk⟩
  · rename_i hu
    exact ⟨fun _ => hu, fun _ => rfl⟩

/-- A table without digests in use. -/
theorem slots_of_listed_nil (hl : bt.Listed []) : bt.slots = fun _ => none := by
  funext el
  exact slots_eq_none.2 fun hu => List.not_mem_nil ((hl.mem el).2 hu)

/-- Writing a digest to one slot. -/
theorem slots_update {bt' : Htable} {v : Hash512} (hg : SameGeom bt bt')
    (hh : bt'.h = Function.update bt.h el v) (hin : bt.InRange el) : bt'.slots =
      Function.update bt.slots el (if hashIsZero v bt.hlen = true then none else some v) := by
  funext x
  unfold Htable.slots Htable.isFree
  rw [hh, hg.2.2]
  by_cases hx : x = el
  · subst hx
    rw [Function.update_self, Function.update_self]
    by_cases hz : hashIsZero v bt.hlen = true
    · rw [if_pos hz, if_neg]
      rintro ⟨-, hn⟩
      rw [hz] at hn
      cases hn
    · rw [if_neg hz, if_pos ⟨(hg.inRange x).2 hin, by simpa using hz⟩]
  · rw [Function.update_of_ne hx, Function.update_of_ne hx]
    simp only [hg.inRange x]

theorem tracks_init (nbBkts elPerBkt hlen : Nat) :
    Tracks nbBkts elPerBkt hlen ⟨allocHtable nbBkts elPerBkt hlen, []⟩ := by
  have hl := listed_alloc nbBkts elPerBkt hlen
  refine ⟨SameGeom.refl _, ⟨[], hl⟩, ?_, ?_⟩
  · intro el hin hu
    exact absurd ((hl.mem el).2 ⟨hin, hu⟩) List.not_mem_nil
  · show BoundedMap.Holds _ (allocHtable nbBkts elPerBkt hlen).slots []
    rw [slots_of_listed_nil hl]
    exact BoundedMap.Holds.nil _

/-- A lookup answers what the calls say. -/
theorem Tracks.lookup (ht : Tracks nbBkts elPerBkt hlen s) (hb : 0 < nbBkts) (h : Hash512) :
    htableLookup s.table h = BoundedMap.bound (digests hlen nbBkts) s.calls h := by
  obtain ⟨hn, -, hl⟩ := ht.geom
  have hn : s.table.nbBkts = nbBkts := hn
  have hl : s.table.hlen = hlen := hl
  have hb' : 0 < s.table.nbBkts := hn ▸ hb
  have hfound : ∀ el, htableLookup s.table h = some el →
      BoundedMap.bound (digests hlen nbBkts) s.calls h = some el := by
    intro el hel
    obtain ⟨hin, hsame, -⟩ := htableLookup_some hb' hel
    rw [ht.holds]
    refine ⟨_, slots_eq_some.2 ⟨hin, htableLookup_not_free hb' hel, rfl⟩, ?_⟩
    rw [hl] at hsame
    exact hsame
  cases hbound : BoundedMap.bound (digests hlen nbBkts) s.calls h with
  | none =>
      cases hlook : htableLookup s.table h with
      | none => rfl
      | some el =>
          rw [hfound el hlook] at hbound
          cases hbound
  | some el =>
      obtain ⟨k, hslot, hsame⟩ := (ht.holds h el).1 hbound
      obtain ⟨hin, hused, rfl⟩ := slots_eq_some.1 hslot
      have hsame : SameHash hlen (s.table.h el) h := hsame
      have hz : hashIsZero h s.table.hlen = false := by
        rw [hl, ← hashIsZero_congr hsame, ← hl]
        exact hused
      cases hlook : htableLookup s.table h with
      | none =>
          -- the slot is in the bucket of the digest, so the lookup has met it
          refine absurd ?_ ((htableLookup_none hz).1 hlook el.2 hin.2)
          rw [hl, hn, ← htableBktNo_congr nbBkts hsame, ← ht.bucket el hin hused]
          exact hsame
      | some el' =>
          rw [hfound el' hlook] at hbound
          exact hbound

/-- What `htable_lookup_add` does to a table that holds what the calls say. -/
theorem Tracks.lookupAdd (ht : Tracks nbBkts elPerBkt hlen s) (hb : 0 < nbBkts) (h : Hash512) :
    ∃ x bt', htableLookupAdd s.table h = .ok (x, bt') ∧
      Tracks nbBkts elPerBkt hlen ⟨bt', .lookupAdd h x :: s.calls⟩ ∧
      (htableLookup s.table h = none → (x = none ↔ ¬ HasRoom s.table h) ∧
        ∀ el isNew, x = some (el, isNew) → isNew = true ∧ s.table.isFree el = true) ∧
      ∀ el, htableLookup s.table h = some el → x = some (el, false) := by
  have hlookup := ht.lookup hb h
  obtain ⟨l, hlisted⟩ := ht.listed
  obtain ⟨hn, -, hlen'⟩ := ht.geom
  have hn : s.table.nbBkts = nbBkts := hn
  have hlen' : s.table.hlen = hlen := hlen'
  rw [htableLookupAdd_eq]
  cases hlook : htableLookup s.table h with
  | some el =>
      refine ⟨_, _, rfl, ⟨ht.geom, ht.listed, ht.bucket, ?_⟩, (fun hh => by cases hh), ?_⟩
      · exact ht.holds.hit (hlookup.symm.trans hlook) false
      · rintro el' ⟨⟩
        rfl
  | none =>
      obtain ⟨hfull, hadd⟩ | ⟨hroom, el, bt', hadd, hadded⟩ := htableAdd_spec hlisted (hn ▸ hb) h
      · refine ⟨none, s.table, by rw [hadd]; rfl, ⟨ht.geom, ht.listed, ht.bucket, ht.holds.fail⟩,
          fun _ => ⟨⟨fun _ => hfull, fun _ => rfl⟩, fun _ _ hh => (by cases hh)⟩,
          fun _ hh => (by cases hh)⟩
      · refine ⟨some (el, true), bt', by rw [hadd]; rfl, ⟨ht.geom.trans hadded.geom, ⟨_, hadded.listed⟩,
          ?_, ?_⟩, fun _ => ⟨⟨fun hh => (by cases hh), fun hh => absurd hroom hh⟩, ?_⟩,
          fun _ hh => (by cases hh)⟩
        · intro x hin hused
          show x.1 = htableBktNo (bt'.h x) hlen nbBkts
          rw [hadded.digests]
          by_cases hx : x = el
          · subst hx
            rw [Function.update_self, hadded.bucket, hn, hlen']
            exact (htableBktNo_congr nbBkts (hashCopy_same _ _ _)).symm
          · have hused : hashIsZero (bt'.h x) bt'.hlen = false := hused
            rw [hadded.digests, Function.update_of_ne hx, hadded.geom.2.2] at hused
            rw [Function.update_of_ne hx]
            exact ht.bucket x ((hadded.geom.inRange x).1 hin) hused
        · have hslots := slots_update hadded.geom hadded.digests hadded.inRange
          rw [hashIsZero_hashCopy, hadded.nonzero] at hslots
          show BoundedMap.Holds _ bt'.slots _
          rw [hslots]
          refine ht.holds.new (hlookup.symm.trans hlook) (slots_eq_none.2 ?_) ?_ true
          · rintro ⟨-, hused⟩
            rw [hadded.free] at hused
            cases hused
          · show SameHash hlen (hashCopy (s.table.h el) h s.table.hlen) h
            rw [hlen']
            exact hashCopy_same _ _ _
        · rintro el' isNew ⟨⟩
          exact ⟨rfl, hadded.free⟩

/-- Every call keeps the table with its calls. -/
theorem Tracks.step {e : HtableCall} (ht : Tracks nbBkts elPerBkt hlen s) (hb : 0 < nbBkts)
    (hs : htableCalls.Step s e s') : Tracks nbBkts elPerBkt hlen s' := by
  obtain ⟨l, hlisted⟩ := ht.listed
  cases e with
  | lookupAdd h =>
      obtain ⟨x, bt', hadd, htracks, -⟩ := ht.lookupAdd hb h
      obtain ⟨⟨y, bt''⟩, hadd', hs⟩ := ok_of_bind hs.2
      obtain rfl := Except.ok.inj hs
      rw [hadd] at hadd'
      obtain ⟨rfl, rfl⟩ := Prod.mk.inj (Except.ok.inj hadd')
      exact htracks
  | rm el =>
      obtain ⟨⟨hin, hused⟩, hs⟩ := hs
      obtain rfl := Except.ok.inj hs
      obtain ⟨hg, hh, hlisted'⟩ := htableRm_spec hlisted ((hlisted.mem el).2 ⟨hin, hused⟩)
      refine ⟨ht.geom.trans hg, ⟨_, hlisted'⟩, ?_, ?_⟩
      · intro x hx hxused
        have hxused : hashIsZero ((htableRm s.table el).h x) s.table.hlen = false := hxused
        show x.1 = htableBktNo ((htableRm s.table el).h x) hlen nbBkts
        rw [hh] at hxused ⊢
        by_cases hxe : x = el
        · rw [hxe, Function.update_self, hashIsZero_hashClear] at hxused
          cases hxused
        · rw [Function.update_of_ne hxe] at hxused ⊢
          exact ht.bucket x hx hxused
      · show BoundedMap.Holds _ (htableRm s.table el).slots _
        rw [slots_update hg hh hin, hashIsZero_hashClear]
        exact ht.holds.rm el
  | clear =>
      obtain rfl := Except.ok.inj hs.2
      obtain ⟨hg, hlisted'⟩ := htableClear_spec hlisted
      refine ⟨ht.geom.trans hg, ⟨_, hlisted'⟩, ?_, ?_⟩
      · intro x hx hxused
        exact absurd ((hlisted'.mem x).2 ⟨hx, hxused⟩) List.not_mem_nil
      · show BoundedMap.Holds _ (htableClear s.table).slots _
        rw [slots_of_listed_nil hlisted']
        exact BoundedMap.Holds.clear _ _

/-- A bucket without a free slot is one with as many bound digests as it has slots. -/
theorem Tracks.crowded_iff (ht : Tracks nbBkts elPerBkt hlen s) (hb : 0 < nbBkts) (h : Hash512) :
    BoundedMap.Crowded (digests hlen nbBkts) elPerBkt s.calls h ↔
      ∀ i < elPerBkt, s.table.isFree (htableBktNo h hlen nbBkts, i) = false := by
  obtain ⟨hn, he, -⟩ := ht.geom
  have hn : s.table.nbBkts = nbBkts := hn
  have he : s.table.elPerBkt = elPerBkt := he
  have hnd : ((List.range elPerBkt).map fun i => (htableBktNo h hlen nbBkts, i)).Nodup :=
    List.nodup_range.map fun i j hij => (Prod.mk.inj hij).2
  have hplaces : ∀ el k, s.table.slots el = some k →
      (el ∈ (List.range elPerBkt).map (fun i => (htableBktNo h hlen nbBkts, i)) ↔
        (digests hlen nbBkts).bucket k = (digests hlen nbBkts).bucket h) := by
    intro el k hk
    obtain ⟨hin, hused, rfl⟩ := slots_eq_some.1 hk
    show _ ↔ htableBktNo (s.table.h el) hlen nbBkts = htableBktNo h hlen nbBkts
    rw [← ht.bucket el hin hused, List.mem_map]
    constructor
    · rintro ⟨i, -, rfl⟩
      rfl
    · intro hbucket
      exact ⟨el.2, List.mem_range.2 (he ▸ hin.2), by rw [← hbucket]⟩
  have hiff := ht.holds.crowded_iff hnd hplaces
  rw [List.length_map, List.length_range] at hiff
  rw [hiff]
  constructor
  · intro hall i hi
    have hused := hall _ (List.mem_map.2 ⟨i, List.mem_range.2 hi, rfl⟩)
    rw [Ne, slots_eq_none, not_not] at hused
    exact hused.2
  · intro hall el hel
    obtain ⟨i, hi, rfl⟩ := List.mem_map.1 hel
    have hi := List.mem_range.1 hi
    rw [Ne, slots_eq_none, not_not]
    refine ⟨⟨?_, ?_⟩, hall i hi⟩
    · rw [hn]
      exact htableBktNo_lt h hlen hb
    · rw [he]
      exact hi

/-- What `htable_lookup_add` answers. -/
theorem Tracks.answers (ht : Tracks nbBkts elPerBkt hlen s) (hb : 0 < nbBkts) (h : Hash512) :
    ∃ x bt', htableLookupAdd s.table h = .ok (x, bt') ∧
      BoundedMap.Answers (digests hlen nbBkts) elPerBkt s.calls h x := by
  obtain ⟨x, bt', hadd, -, habsent, hpresent⟩ := ht.lookupAdd hb h
  have hlookup := ht.lookup hb h
  obtain ⟨hn, he, hl⟩ := ht.geom
  have hn : s.table.nbBkts = nbBkts := hn
  have he : s.table.elPerBkt = elPerBkt := he
  have hl : s.table.hlen = hlen := hl
  refine ⟨x, bt', hadd, ?_⟩
  cases hlook : htableLookup s.table h with
  | some el =>
      obtain rfl := hpresent el hlook
      rw [hlook] at hlookup
      have hz : ¬ hashIsZero h hlen = true := by
        obtain ⟨-, -, hz, -⟩ := htableLookup_some (hn ▸ hb) hlook
        rw [← hl, hz]
        decide
      refine ⟨⟨fun hh => (by cases hh), ?_⟩, ?_⟩
      · rintro (hv | ⟨hnone, -⟩)
        · exact absurd hv hz
        · rw [hnone] at hlookup
          cases hlookup
      · rintro el' isNew ⟨⟩
        exact hlookup.symm
  | none =>
      obtain ⟨hfail, hnew⟩ := habsent hlook
      rw [hlook] at hlookup
      constructor
      · rw [hfail, HasRoom, hl, hn, he]
        show _ ↔ hashIsZero h hlen = true ∨ _
        rw [ht.crowded_iff hb h]
        constructor
        · intro hno
          by_cases hz : hashIsZero h hlen = true
          · exact .inl hz
          · refine .inr ⟨hlookup.symm, fun i hi => ?_⟩
            by_contra hfree
            exact hno ⟨by simpa using hz, i, hi, by simpa using hfree⟩
        · rintro (hz | ⟨-, hall⟩) ⟨hnz, i, hi, hfree⟩
          · rw [hz] at hnz
            cases hnz
          · rw [hall i hi] at hfree
            cases hfree
      · intro el isNew hx
        obtain ⟨rfl, hfree⟩ := hnew el isNew hx
        refine ⟨hlookup.symm, fun a ha => ?_⟩
        obtain ⟨k, hk, -⟩ := (ht.holds a el).1 ha
        rw [(slots_eq_some.1 hk).2.1] at hfree
        cases hfree

/-- The table is a finite map with bounded buckets: after any calls a lookup answers the slot that the
digest was last bound to, different digests have different slots, the next `htable_lookup_add` answers as
it has to, and no call goes wrong. -/
theorem htable_finite_map {es : List HtableCall} (nbBkts elPerBkt hlen : Nat) (s : HtableLog)
    (hb : 0 < nbBkts)
    (hrun : htableCalls.Run ⟨allocHtable nbBkts elPerBkt hlen, []⟩ es s) :
    (∀ h, htableLookup s.table h = BoundedMap.bound (digests hlen nbBkts) s.calls h) ∧
    (∀ h h' el, htableLookup s.table h = some el → htableLookup s.table h' = some el →
      SameHash hlen h h') ∧
    (∀ h, ∃ x bt', htableLookupAdd s.table h = .ok (x, bt') ∧
      BoundedMap.Answers (digests hlen nbBkts) elPerBkt s.calls h x) ∧
    ∀ f, ¬ htableCalls.Faults s f := by
  have ht : Tracks nbBkts elPerBkt hlen s :=
    hrun.invariant (I := Tracks nbBkts elPerBkt hlen) (fun _ _ _ hI hs => hI.step hb hs)
      (tracks_init nbBkts elPerBkt hlen)
  refine ⟨ht.lookup hb, ?_, ht.answers hb, ?_⟩
  · intro h h' el hel hel'
    rw [ht.lookup hb] at hel hel'
    exact ht.holds.distinct hel hel'
  · rintro f ⟨e, -, hf⟩
    cases e with
    | lookupAdd h =>
        obtain ⟨x, bt', hadd, -⟩ := ht.lookupAdd hb h
        have hf : (htableLookupAdd s.table h >>= fun x =>
          Except.ok (⟨x.2, .lookupAdd h x.1 :: s.calls⟩ : HtableLog)) = .error f := hf
        rw [hadd] at hf
        cases hf
    | rm el => cases hf
    | clear => cases hf

/-- A table of two slots: a digest is added, taken out and added again next to another one, after which the
table is full for a third. -/
theorem htable_finite_map_two : ∃ s, htableLookup s.table (fun _ => 1) = some (0, 1) ∧
    (∀ h, htableLookup s.table h = BoundedMap.bound (digests 1 1) s.calls h) ∧
    (∀ h h' el, htableLookup s.table h = some el → htableLookup s.table h' = some el →
      SameHash 1 h h') ∧
    (∀ h, ∃ x bt', htableLookupAdd s.table h = .ok (x, bt') ∧
      BoundedMap.Answers (digests 1 1) 2 s.calls h x) ∧
    ∀ f, ¬ htableCalls.Faults s f := by
  have hexec : (htableCalls.exec ⟨allocHtable 1 2 1, []⟩
      [.lookupAdd fun _ => 1, .rm (0, 0), .lookupAdd fun _ => 2, .lookupAdd fun _ => 1,
        .lookupAdd fun _ => 3]).any
      (fun s => htableLookup s.table (fun _ => 1) == some (0, 1)) = true := by
    decide +kernel
  obtain ⟨s, hrun, hs⟩ := Machine.Run.of_exec_any hexec
  exact ⟨s, by simpa using hs, htable_finite_map 1 2 1 s (by decide) hrun⟩

end Tracks

end Minipython.Shfs
