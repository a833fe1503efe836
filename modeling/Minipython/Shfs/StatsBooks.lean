/-
# Minipython.Shfs.StatsBooks — the statistics as accounts (shfs_stats.h, shfs_fio.c, shfs.c)

A digest is a key, the entries of the table are seats, and the miss table is the store. The entry whose cached
copy has the digest holds it, also while a remount waits to overwrite that copy: the counters in `hstats` are
still those of the old digest then. Each function of the statistics is one operation on these books.

The vocabulary is that of `Lib.Accounts`: each key has one holder, a seat or the store, and an operation
credits an account or moves it. `Sound` says of the miss table that it is a finite map on digests, with no
slot that is not on its list.
-/
import Minipython.Lib.Accounts
import Minipython.Shfs.Stats
import Mathlib.Algebra.Group.Prod
import Mathlib.Data.Fintype.Defs
import Mathlib.Data.Fintype.Basic

namespace Minipython.Shfs

open Minipython.Lib

/-! ## Digests as keys -/

/-- The bytes of a digest that count. -/
abbrev Digest (hlen : Nat) := Fin hlen → UInt8

namespace Digest

variable {hlen : Nat} {h h' : Hash512}

def of (hlen : Nat) (h : Hash512) : Digest hlen := fun i => h i

/-- A digest in memory. -/
def bytes (k : Digest hlen) : Hash512 := fun i => if hi : i < hlen then k ⟨i, hi⟩ else 0

theorem of_eq_iff : of hlen h = of hlen h' ↔ SameHash hlen h h' :=
  ⟨fun he i hi => congrFun he ⟨i, hi⟩, fun hs => funext fun i => hs i i.2⟩

theorem bytes_same (k : Digest hlen) (h : Hash512) : SameHash hlen h k.bytes ↔ of hlen h = k := by
  have hk : of hlen k.bytes = k := by
    funext i
    exact dif_pos i.2
  rw [← of_eq_iff, hk]

end Digest

/-- The digest in a hash value, unless it is the zero digest. -/
def digestOf (hlen : Nat) (h : Hash512) : Option (Digest hlen) :=
  if hashIsZero h hlen then none else some (Digest.of hlen h)

section DigestOf

variable {hlen : Nat} {h h' : Hash512} {k : Digest hlen}

theorem digestOf_zero (hz : hashIsZero h hlen = true) : digestOf hlen h = none := if_pos hz

theorem digestOf_nonzero (hz : hashIsZero h hlen = false) :
    digestOf hlen h = some (Digest.of hlen h) := if_neg (by rw [hz]; exact Bool.false_ne_true)

theorem digestOf_congr (hs : SameHash hlen h h') : digestOf hlen h = digestOf hlen h' := by
  unfold digestOf
  rw [hashIsZero_congr hs, Digest.of_eq_iff.2 hs]

theorem digestOf_eq_some : digestOf hlen h = some k ↔
    hashIsZero h hlen = false ∧ Digest.of hlen h = k := by
  unfold digestOf
  split
  · rename_i hz
    exact ⟨fun he => (by cases he), fun he => absurd hz (by rw [he.1]; exact Bool.false_ne_true)⟩
  · rename_i hz
    rw [Option.some.injEq]
    exact ⟨fun he => ⟨by simpa using hz, he⟩, fun he => he.2⟩

/-- Digests that count as different are different keys. -/
theorem digestOf_ne (hd : hashCompare h h' hlen = true) : digestOf hlen h ≠ digestOf hlen h' := by
  intro he
  have hne : ¬ SameHash hlen h h' := fun hs => by
    rw [hashCompare_eq_false.2 hs] at hd
    cases hd
  by_cases hz : hashIsZero h hlen = true
  · rw [digestOf_zero hz] at he
    refine hne fun i hi => ?_
    have hz' : hashIsZero h' hlen = true := by
      by_contra hn
      rw [digestOf_nonzero (by simpa using hn)] at he
      cases he
    rw [hashIsZero_iff.1 hz i hi, hashIsZero_iff.1 hz' i hi]
  · rw [digestOf_nonzero (by simpa using hz)] at he
    obtain ⟨-, hk⟩ := digestOf_eq_some.1 he.symm
    exact hne (Digest.of_eq_iff.1 hk.symm)

end DigestOf

/-! ## The miss table -/

namespace Mstats

variable {conf : VolConf} {ms : Mstats} {h h' : Hash512} {p : HtableEl}

/-- The miss table is a hash table of the dimensions of the bucket table. -/
def Sound (conf : VolConf) (ms : Mstats) : Prop :=
  ∃ calls, Tracks conf.htableNbBuckets conf.htableNbEntriesPerBucket conf.hlen ⟨ms.elHt, calls⟩

theorem nbBuckets_pos (conf : VolConf) : 0 < conf.htableNbBuckets := by
  refine Nat.pos_of_ne_zero fun h0 => ?_
  have h1 := conf.nbEntries_pos
  have h2 := conf.nbEntries_le
  rw [h0, Nat.zero_mul] at h2
  omega

theorem find_eq_none : ms.find h = none ↔ htableLookup ms.elHt h = none := Option.map_eq_none_iff

theorem sound_init (conf : VolConf) :
    (shfsInitMstats conf.htableNbBuckets conf.htableNbEntriesPerBucket conf.hlen).Sound conf :=
  ⟨[], tracks_init _ _ _⟩

theorem find_init (conf : VolConf) (h : Hash512) :
    (shfsInitMstats conf.htableNbBuckets conf.htableNbEntriesPerBucket conf.hlen).find h = none :=
  find_eq_none.2 ((tracks_init _ _ _).lookup (nbBuckets_pos conf) h)

theorem Sound.hlen (hs : ms.Sound conf) : ms.elHt.hlen = conf.hlen := by
  obtain ⟨calls, ht⟩ := hs
  exact ht.geom.2.2

theorem Sound.lookup_congr (hs : ms.Sound conf) (hh : SameHash conf.hlen h h') :
    htableLookup ms.elHt h = htableLookup ms.elHt h' := by
  obtain ⟨calls, ht⟩ := hs
  have hb := nbBuckets_pos conf
  have hl := ht.lookup hb
  rw [show htableLookup ms.elHt h = _ from hl h, show htableLookup ms.elHt h' = _ from hl h']
  exact ht.holds.congr hh

/-- Two digests with one element are the same. -/
theorem Sound.lookup_inj (hs : ms.Sound conf) (h1 : htableLookup ms.elHt h = some p)
    (h2 : htableLookup ms.elHt h' = some p) : SameHash conf.hlen h h' := by
  obtain ⟨calls, ht⟩ := hs
  have hb := nbBuckets_pos conf
  have hl := ht.lookup hb
  rw [show htableLookup ms.elHt h = _ from hl h] at h1
  rw [show htableLookup ms.elHt h' = _ from hl h'] at h2
  exact ht.holds.distinct h1 h2

/-- `ms'` has the statistics `x` of the digest `h`, and of the others the same as `ms`. -/
def Sets (conf : VolConf) (ms ms' : Mstats) (h : Hash512) (x : Option ElStats) : Prop :=
  ms'.Sound conf ∧ (∀ h', SameHash conf.hlen h h' → ms'.find h' = x) ∧
    ∀ h', ¬ SameHash conf.hlen h h' → ms'.find h' = ms.find h'

theorem Sets.trans {ms₁ ms₂ : Mstats} {x y : Option ElStats} (h1 : Sets conf ms ms₁ h x)
    (h2 : Sets conf ms₁ ms₂ h y) : Sets conf ms ms₂ h y :=
  ⟨h2.1, h2.2.1, fun h' hh => (h2.2.2 h' hh).trans (h1.2.2 h' hh)⟩

/-- What is in the element of the digest. -/
theorem Sets.elStats {ms₁ : Mstats} {x : ElStats} (hset : Sets conf ms ms₁ h (some x))
    (hp : htableLookup ms₁.elHt h = some p) : ms₁.elStats p = x := by
  have hself := hset.2.1 h (SameHash.refl h)
  unfold find at hself
  rw [hp] at hself
  exact Option.some.inj hself

/-- Writing to an element that is in use. -/
theorem Sound.write (hs : ms.Sound conf) (hp : htableLookup ms.elHt h = some p) (x : ElStats) :
    Sets conf ms (ms.write p x) h (some x) := by
  refine ⟨hs, fun h' hh => ?_, fun h' hh => ?_⟩
  · show (htableLookup ms.elHt h').map (Function.update ms.elStats p x) = some x
    rw [← hs.lookup_congr hh, hp, Option.map_some, Function.update_self]
  · show (htableLookup ms.elHt h').map (Function.update ms.elStats p x) = (htableLookup ms.elHt h').map _
    cases hq : htableLookup ms.elHt h' with
    | none => rfl
    | some q =>
        have hne : q ≠ p := by
          rintro rfl
          exact hh (hs.lookup_inj hp hq)
        rw [Option.map_some, Option.map_some, Function.update_of_ne hne]

/-- `shfs_stats_mstats_drop` leaves no statistics of the digest. -/
theorem Sound.drop (hs : ms.Sound conf) (h : Hash512) :
    Sets conf ms (shfsStatsMstatsDrop ms h) h none := by
  have hb := nbBuckets_pos conf
  unfold shfsStatsMstatsDrop
  cases hp : htableLookup ms.elHt h with
  | none =>
      refine ⟨hs, fun h' hh => ?_, fun _ _ => rfl⟩
      rw [find_eq_none, ← hs.lookup_congr hh, hp]
  | some p =>
      obtain ⟨calls, ht⟩ := id hs
      have hlook := ht.lookup hb
      obtain ⟨hin, -⟩ := @htableLookup_some ms.elHt h p (ht.geom.1 ▸ hb) hp
      have hused := htableLookup_not_free (ht.geom.1 ▸ hb) hp
      have ht' : Tracks conf.htableNbBuckets conf.htableNbEntriesPerBucket conf.hlen
          ⟨htableRm ms.elHt p, .rm p :: calls⟩ :=
        ht.step hb (e := .rm p) ⟨⟨hin, hused⟩, rfl⟩
      have hlook' := ht'.lookup hb
      have hrm : ∀ h', htableLookup (htableRm ms.elHt p) h' =
          (htableLookup ms.elHt h').filter (· ≠ p) := by
        intro h'
        rw [show htableLookup (htableRm ms.elHt p) h' = _ from hlook' h',
          show htableLookup ms.elHt h' = _ from hlook h']
        rfl
      refine ⟨⟨_, ht'⟩, fun h' hh => ?_, fun h' hh => ?_⟩
      · rw [find_eq_none]
        show htableLookup (htableRm ms.elHt p) h' = none
        rw [hrm, ← hs.lookup_congr hh, hp]
        simp
      · show (htableLookup (htableRm ms.elHt p) h').map ms.elStats = _
        rw [hrm]
        unfold find
        cases hq : htableLookup ms.elHt h' with
        | none => rfl
        | some q =>
            have hne : q ≠ p := by
              rintro rfl
              exact hh (hs.lookup_inj hp hq)
            rw [Option.filter_some, if_pos (decide_eq_true hne)]

/-- What `shfs_stats_from_mstats` does: it fails for a digest without an element in a full bucket, and else
names the element of the digest, in which there is zero if it is new. -/
theorem Sound.fromMstats (hs : ms.Sound conf) (h : Hash512) :
    ∃ x ms', shfsStatsFromMstats ms h = .ok (x, ms') ∧
      match x with
      | none => ms'.Sound conf ∧ (∀ h', ms'.find h' = ms.find h') ∧
          (hashIsZero h conf.hlen = true ∨ ¬ ms.Room h)
      | some p => hashIsZero h conf.hlen = false ∧ htableLookup ms'.elHt h = some p ∧
          Sets conf ms ms' h (some ((ms.find h).getD ElStats.zero)) := by
  have hb := nbBuckets_pos conf
  have hlen := hs.hlen
  obtain ⟨calls, ht⟩ := hs
  obtain ⟨x, ht', hadd, ht'', hmiss, hhit⟩ := ht.lookupAdd hb h
  have hlook := ht.lookup hb
  have hlook' := ht''.lookup hb
  have hadd : htableLookupAdd ms.elHt h = .ok (x, ht') := hadd
  have habsent : (∀ q, x ≠ some (q, false)) → htableLookup ms.elHt h = none := fun hx => by
    cases hq : htableLookup ms.elHt h with
    | none => rfl
    | some q => exact absurd (hhit q hq) (hx q)
  unfold shfsStatsFromMstats
  rw [hadd]
  cases x with
  | none =>
      refine ⟨none, { ms with elHt := ht' }, rfl, ⟨_, ht''⟩, fun h' => ?_, ?_⟩
      · show (htableLookup ht' h').map ms.elStats = (htableLookup ms.elHt h').map ms.elStats
        rw [show htableLookup ht' h' = _ from hlook' h', show htableLookup ms.elHt h' = _ from hlook h']
        rfl
      · have hnone := habsent fun q hq => by cases hq
        by_cases hz : hashIsZero h conf.hlen = true
        · exact .inl hz
        · refine .inr ?_
          rintro (hz' | hne | hroom)
          · exact hz (hlen ▸ hz')
          · exact hne hnone
          · exact ((hmiss hnone).1.1 rfl) hroom
  | some pn =>
      obtain ⟨p, isNew⟩ := pn
      have hbound : ∀ h', htableLookup ht' h' =
          if SameHash conf.hlen h h' then some p else htableLookup ms.elHt h' := by
        intro h'
        rw [show htableLookup ht' h' = _ from hlook' h', show htableLookup ms.elHt h' = _ from hlook h']
        rfl
      have hself : htableLookup ht' h = some p := by rw [hbound, if_pos (SameHash.refl h)]
      have hz : hashIsZero h conf.hlen = false := by
        have hb' : 0 < ht'.nbBkts := ht''.geom.1 ▸ hb
        obtain ⟨-, -, hz, -⟩ := htableLookup_some hb' hself
        rw [show ht'.hlen = conf.hlen from ht''.geom.2.2] at hz
        exact hz
      refine ⟨some p, _, rfl, hz, hself, ⟨_, ht''⟩, fun h' hh => ?_, fun h' hh => ?_⟩
      · show (htableLookup ht' h').map _ = _
        rw [hbound, if_pos hh, Option.map_some]
        cases hq : htableLookup ms.elHt h with
        | none =>
            obtain ⟨rfl, -⟩ := (hmiss hq).2 p isNew rfl
            rw [if_pos rfl, find_eq_none.2 hq]
            exact congrArg some (Function.update_self p ElStats.zero ms.elStats)
        | some q =>
            obtain ⟨rfl, rfl⟩ := Prod.mk.inj (Option.some.inj (hhit q hq))
            unfold find
            rw [hq]
            rfl
      · show (htableLookup ht' h').map _ = (htableLookup ms.elHt h').map _
        rw [hbound, if_neg hh]
        cases hq : htableLookup ms.elHt h' with
        | none => rfl
        | some q =>
            cases isNew with
            | false => rfl
            | true =>
                -- the new element was free, so it is not the one of another digest
                have hne : q ≠ p := by
                  rintro rfl
                  have hnone := habsent fun q' hq' => by cases hq'
                  obtain ⟨-, hfree⟩ := (hmiss hnone).2 q true rfl
                  have hused := htableLookup_not_free (ht.geom.1 ▸ hb) hq
                  have hfree : ms.elHt.isFree q = true := hfree
                  rw [hused] at hfree
                  cases hfree
                rw [if_pos rfl, Option.map_some, Option.map_some]
                exact congrArg some (Function.update_of_ne hne _ _)

end Mstats

section Moves

variable {conf : VolConf} {st : Stats} {h : Hash512}

/-- With room in the miss table, the statistics of the entry arrive there. -/
theorem moveToMstats_spec (hs : st.mstats.Sound conf) (el : HtableEl)
    (hz : hashIsZero h conf.hlen = false) (hroom : st.mstats.Room h) :
    ∃ st', st.moveToMstats el h = .ok st' ∧
      st'.hstats = Function.update st.hstats el ElStats.zero ∧
      Mstats.Sets conf st.mstats st'.mstats h (some (st.hstats el)) := by
  obtain ⟨x, ms, hfrom, hx⟩ := hs.fromMstats h
  unfold Stats.moveToMstats
  rw [hfrom]
  cases x with
  | none =>
      obtain ⟨-, -, hz' | hnoroom⟩ := hx
      · rw [hz] at hz'
        cases hz'
      · exact absurd hroom hnoroom
  | some p =>
      obtain ⟨-, hp, hset⟩ := hx
      exact ⟨_, rfl, rfl, hset.trans (hset.1.write hp _)⟩

/-- Statistics that are loaded are gone from the miss table. Without room nothing is loaded, but then the miss
table had none. -/
theorem loadFromMstats_spec (hs : st.mstats.Sound conf) (el : HtableEl)
    (hz : hashIsZero h conf.hlen = false) :
    ∃ st', st.loadFromMstats el h = .ok st' ∧
      st'.hstats = Function.update st.hstats el ((st.mstats.find h).getD ElStats.zero) ∧
      Mstats.Sets conf st.mstats st'.mstats h none := by
  obtain ⟨x, ms, hfrom, hx⟩ := hs.fromMstats h
  unfold Stats.loadFromMstats
  rw [hfrom]
  cases x with
  | none =>
      obtain ⟨hs', hfind, hfail⟩ := hx
      have hnoroom : ¬ st.mstats.Room h := hfail.resolve_left (by rw [hz]; exact Bool.false_ne_true)
      have hnone : st.mstats.find h = none := by
        rw [Mstats.find_eq_none]
        by_contra hn
        exact hnoroom (.inr (.inl hn))
      have hdrop := hs'.drop h
      refine ⟨_, rfl, by rw [hnone]; rfl, hdrop.1, hdrop.2.1, fun h' hh => ?_⟩
      exact (hdrop.2.2 h' hh).trans (hfind h')
  | some p =>
      obtain ⟨-, hp, hset⟩ := hx
      refine ⟨_, rfl, ?_, hset.trans (hset.1.drop h)⟩
      rw [← hset.elStats hp]

end Moves

/-! ## Accesses -/

/-- What an access adds to the hits and misses of a digest. -/
def Access.credit {hlen : Nat} (k : Digest hlen) : Access → Nat × Nat
  | .hit _ h => if digestOf hlen h = some k then (1, 0) else 0
  | .miss h => if digestOf hlen h = some k then (0, 1) else 0

/-- The hits and misses of a digest in a log. -/
def recorded (hlen : Nat) : List Access → Digest hlen → Nat × Nat
  | [], _ => 0
  | a :: log, k => recorded hlen log k + a.credit k

section Recorded

variable {hlen : Nat} {log : List Access}

/-- A log only grows. -/
theorem recorded_le (l : List Access) (k : Digest hlen) :
    recorded hlen log k ≤ recorded hlen (l ++ log) k := by
  induction l with
  | nil => exact le_refl _
  | cons a l ih => exact ⟨le_trans ih.1 (Nat.le_add_right _ _), le_trans ih.2 (Nat.le_add_right _ _)⟩

/-- An access of a digest. -/
theorem recorded_some {a : Access} {x : Nat × Nat} {d : Option (Digest hlen)} {k : Digest hlen}
    (ha : ∀ k, a.credit k = if d = some k then x else 0) (hd : d = some k) : recorded hlen (a :: log) =
      Function.update (recorded hlen log) k (recorded hlen log k + x) := by
  funext k'
  rw [recorded, ha, hd]
  by_cases hk : k' = k
  · rw [hk, Function.update_self, if_pos rfl]
  · rw [Function.update_of_ne hk, if_neg fun he => hk (Option.some.inj he).symm, add_zero]

/-- An access of the zero digest. -/
theorem recorded_none {a : Access} {x : Nat × Nat} {d : Option (Digest hlen)}
    (ha : ∀ k, a.credit k = if d = some k then x else 0) (hd : d = none) :
    recorded hlen (a :: log) = recorded hlen log := by
  funext k'
  rw [recorded, ha, hd, if_neg (fun he => by cases he), add_zero]

end Recorded

/-! ## The books -/

/-- The statistics of a volume as accounts of hits and misses. -/
def Stats.books (st : Stats) (conf : VolConf) (v : Vol) :
    Books Nat (Digest conf.hlen) (Nat × Nat) where
  holder i :=
    if i < conf.htableNbEntries then digestOf conf.hlen (tableEntry conf v.htableChunkCache i) else none
  account i := (st.hstats (v.slot i)).counts
  store k := (st.mstats.find k.bytes).map ElStats.counts

section BooksLaws

variable {conf : VolConf} {st st' : Stats} {v : Vol} {i : Nat} {h : Hash512} {k : Digest conf.hlen}
  {ms' : Mstats} {x : Option ElStats}

theorem books_holder (hi : i < conf.htableNbEntries) : (st.books conf v).holder i =
    digestOf conf.hlen (tableEntry conf v.htableChunkCache i) := if_pos hi

/-- The cached entries with a digest are its holders. -/
theorem books_holder_eq_some : (st.books conf v).holder i = some k ↔ i < conf.htableNbEntries ∧
    digestOf conf.hlen (tableEntry conf v.htableChunkCache i) = some k := by
  show (if _ then _ else _) = _ ↔ _
  split
  · rename_i hi
    exact ⟨fun he => ⟨hi, he⟩, fun he => he.2⟩
  · rename_i hi
    exact ⟨fun he => (by cases he), fun he => absurd he.1 hi⟩

/-- The books of two volumes with the same cached entries and slots. -/
theorem books_congr {w : Vol} (hc : w.htableChunkCache = v.htableChunkCache) (hs : w.slot = v.slot)
    (hh : st'.hstats = st.hstats) (hm : st'.mstats.find = st.mstats.find) :
    st'.books conf w = st.books conf v := by
  unfold Stats.books
  rw [hc, hs, hh, hm]

/-- Writing the counters of an entry. -/
theorem books_post (y : ElStats) :
    Stats.books { st with hstats := Function.update st.hstats (v.slot i) y } conf v =
      (st.books conf v).post i y.counts := by
  have hacc : (fun j => (Function.update st.hstats (v.slot i) y (v.slot j)).counts) =
      Function.update (fun j => (st.hstats (v.slot j)).counts) i y.counts := by
    funext j
    by_cases hj : j = i
    · subst hj
      rw [Function.update_self, Function.update_self]
    · have hne : v.slot j ≠ v.slot i := fun he => hj (Htable.slot_injective he)
      rw [Function.update_of_ne hj, Function.update_of_ne hne]
  unfold Stats.books Books.post
  simp only [hacc]

/-- Writing to the miss table. -/
theorem books_sets (hs : Mstats.Sets conf st.mstats ms' h x) :
    (fun k : Digest conf.hlen => (ms'.find k.bytes).map ElStats.counts) =
      Function.update (st.books conf v).store (Digest.of conf.hlen h) (x.map ElStats.counts) := by
  funext k
  by_cases hk : k = Digest.of conf.hlen h
  · subst hk
    rw [Function.update_self, hs.2.1 _ ((Digest.bytes_same _ h).2 rfl)]
  · rw [Function.update_of_ne hk, hs.2.2 _ fun hh => hk ((Digest.bytes_same k h).1 hh).symm]
    rfl

/-- Writing the counters of a digest in the miss table. -/
theorem books_postStore {y : ElStats} (hs : Mstats.Sets conf st.mstats ms' h (some y)) :
    Stats.books { st with mstats := ms' } conf v =
      (st.books conf v).postStore (Digest.of conf.hlen h) y.counts := by
  unfold Books.postStore
  rw [show some y.counts = (some y).map ElStats.counts from rfl, ← books_sets hs]
  rfl

/-- The store has what the miss table finds. -/
theorem books_store (hs : st.mstats.Sound conf) (h : Hash512) :
    (st.books conf v).store (Digest.of conf.hlen h) = (st.mstats.find h).map ElStats.counts := by
  have hsame := (Digest.bytes_same (Digest.of conf.hlen h) h).2 rfl
  show (st.mstats.find _).map _ = _
  unfold Mstats.find
  rw [hs.lookup_congr hsame]

theorem getD_counts (x : Option ElStats) :
    (x.map ElStats.counts).getD 0 = (x.getD ElStats.zero).counts := by
  cases x <;> rfl

end BooksLaws

end Minipython.Shfs
