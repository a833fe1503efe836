/-
# Minipython.Shfs.StatsDump — the dump of the statistics, while files are opened (shfs_stats.c, shfs_stats.h)

`shfs_dump_stats` goes through the bucket table and then through the miss table, and calls `dump_el` for each
element. The exporter holds the mount lock, so nothing is mounted, unmounted or remounted meanwhile; but its
writes to the device wait, and files are opened and closed while it waits. Then counters change under the dump,
and digests that are missed are linked to the end of the miss table.

`dumping` is the machine of both: a step of the dump, or a call for a file. The dump holds a position in one
of the two lists. Opening a file never takes an element off either list, so the rest of the list behind the
position stays what it was, with new elements at its end (`Htable.Grown`): the walk meets every element that
was there when it began, once.

That a digest is in one place only is not the dump's doing. It comes from the history of the statistics, a
careful run from a mount without double digests (`StatsKept`), and the same care during the dump. Without it
the dump may have two rows for a digest.
-/
import Minipython.Lib.Cursor
import Minipython.Shfs.StatsKept

namespace Minipython.Shfs

open Minipython.Lib

/-! ## The dump -/

/-- An element of the bucket table, or one of the miss table. -/
abbrev DumpEl := HtableEl ⊕ HtableEl

/-- A call of `dump_el`; it is told by `available` which table the element is in. -/
structure DumpRow where
  el : DumpEl
  h : Hash512
  stats : ElStats

/-- Where the dump is. Before an element it looks up where to go; the digest of an element is printed first, and
its counters are read behind that. -/
inductive DumpPos where
  | walk (c : Cursor DumpEl)
  | counts (el : DumpEl) (h : Hash512)

/-- A mounted volume with a dump in progress. -/
structure Dumping where
  s : StatsSys
  pos : DumpPos
  rows : List DumpRow

namespace Stats

variable (st : Stats) (v : Vol)

/-- `foreach_htable_el` on the bucket table, and then on the miss table. -/
def dumpFirst : Option DumpEl := (v.bt.ends.first.map .inl).or (st.mstats.elHt.ends.first.map .inr)

def dumpNext : DumpEl → Option DumpEl :=
  DList.onward v.bt.links.next st.mstats.elHt.links.next st.mstats.elHt.ends.first

/-- `*el->h`. -/
def dumpHash : DumpEl → Hash512
  | .inl el => v.bt.h el
  | .inr el => st.mstats.elHt.h el

/-- `shfs_stats_from_bentry`, or `el->private`. -/
def dumpStats : DumpEl → ElStats
  | .inl el => st.hstats el
  | .inr el => st.mstats.elStats el

end Stats

/-- The dump goes on to where it waits next. -/
def dumpStep (d : Dumping) (v : Vol) : Dumping :=
  match d.pos with
  | .walk .start => { d with pos := .walk (.move (d.s.stats.dumpFirst v)) }
  | .walk (.here k) => { d with pos := .counts k (d.s.stats.dumpHash v k) }
  | .counts k h => { d with pos := .walk (.past k), rows := d.rows ++ [⟨k, h, d.s.stats.dumpStats k⟩] }
  | .walk (.past k) => { d with pos := .walk (.move (d.s.stats.dumpNext v k)) }
  | .walk .done => d

/-- What happens while the mount lock is held for a dump. -/
inductive DumpEvent where
  | call (e : StatsEvent)
  | dump

/-- Calls of `shfs_fio_*` that keep the statistics whole. -/
abbrev carefulStats : Machine StatsSys StatsEvent Fault := roomyStats.restrict Careful

/-- The dump has gone through both tables. -/
def DumpPos.over : DumpPos → Bool
  | .walk .done => true
  | _ => false

def dumpEnabled (d : Dumping) : DumpEvent → Prop
  | .call e => d.pos.over = false ∧ e.1.isCall = true ∧ carefulStats.Enabled d.s e
  | .dump => d.pos.over = false

def dumpEvent (d : Dumping) : DumpEvent → Except Fault Dumping
  | .call e => (carefulStats.next d.s e).map fun s => { d with s := s }
  | .dump => .ok ((d.s.sys.vol.map (dumpStep d)).getD d)

/-- A dump, until it is over. -/
def dumping : Machine Dumping DumpEvent Fault := ⟨dumpEnabled, dumpEvent⟩

instance (d : Dumping) (e : DumpEvent) : Decidable (dumping.Enabled d e) :=
  match e with
  | .call e => inferInstanceAs (Decidable (d.pos.over = false ∧ e.1.isCall = true ∧
      (roomyStats.Enabled d.s e ∧ Careful d.s e)))
  | .dump => inferInstanceAs (Decidable (d.pos.over = false))

/-! ## The miss table grows -/

/-- The list of a table has got longer at its end, and the digests in it are what they were. -/
def Htable.Grown (bt bt' : Htable) : Prop :=
  ∀ l, bt.Listed l → ∃ new, bt'.Listed (l ++ new) ∧ ∀ el ∈ l, bt'.h el = bt.h el

section Growth

variable {bt bt' : Htable} {conf : VolConf} {ms ms' : Mstats} {st st' : Stats} {v : Vol} {h : Hash512}
  {now : UInt32}

theorem Htable.Grown.refl (bt : Htable) : bt.Grown bt :=
  fun _ hl => ⟨[], by rwa [List.append_nil], fun _ _ => rfl⟩

theorem grown_lookupAdd (hb : 0 < bt.nbBkts) {x : Option (HtableEl × Bool)}
    (hadd : htableLookupAdd bt h = .ok (x, bt')) : bt.Grown bt' := by
  intro l hl
  rw [htableLookupAdd_eq] at hadd
  cases hlook : htableLookup bt h with
  | some el =>
      rw [hlook] at hadd
      rcases Except.ok.inj hadd with ⟨rfl, rfl⟩
      exact Htable.Grown.refl _ l hl
  | none =>
      rw [hlook] at hadd
      rcases htableAdd_spec hl hb h with ⟨-, heq⟩ | ⟨-, el, bt₁, heq, hadded⟩
      · simp only [heq] at hadd
        rcases Except.ok.inj hadd with ⟨rfl, rfl⟩
        exact Htable.Grown.refl _ l hl
      · simp only [heq] at hadd
        rcases Except.ok.inj hadd with ⟨rfl, rfl⟩
        refine ⟨[el], hadded.listed, fun el' hel' => ?_⟩
        have hne : el' ≠ el := by
          rintro rfl
          have hused := ((hl.mem el').1 hel').2
          rw [hadded.free] at hused
          cases hused
        simp only [hadded.digests]
        exact Function.update_of_ne hne _ _

theorem grown_fromMstats (hs : ms.Sound conf) {x : Option HtableEl}
    (hfrom : shfsStatsFromMstats ms h = .ok (x, ms')) : ms.elHt.Grown ms'.elHt := by
  have hb : 0 < ms.elHt.nbBkts := by
    rcases hs with ⟨calls, ht⟩
    have hn : ms.elHt.nbBkts = conf.htableNbBuckets := ht.geom.1
    rw [hn]
    exact Mstats.nbBuckets_pos conf
  rcases ok_of_bind hfrom with ⟨⟨x', bt'⟩, hadd, hret⟩
  have hgrown := grown_lookupAdd hb hadd
  cases x' with
  | none =>
      rcases Except.ok.inj hret with ⟨rfl, rfl⟩
      exact hgrown
  | some pn =>
      rcases Except.ok.inj hret with ⟨rfl, rfl⟩
      exact hgrown

theorem grown_lookupHash (hs : st.mstats.Sound conf)
    (hok : st.shfsLookupBentryByHash v now h = .ok st') : st.mstats.elHt.Grown st'.mstats.elHt := by
  unfold Stats.shfsLookupBentryByHash at hok
  cases hf : shfsLookupBentryByHash v h with
  | some el =>
      rw [hf] at hok
      rw [← Except.ok.inj hok]
      exact Htable.Grown.refl _
  | none =>
      rw [hf] at hok
      rcases ok_of_bind hok with ⟨⟨x, ms⟩, hfrom, hret⟩
      have hgrown := grown_fromMstats hs hfrom
      cases x <;> exact Except.ok.inj hret ▸ hgrown

/-- The end of an open leaves the miss table alone. -/
theorem elHt_openBentry (st : Stats) (v : Vol) (now : UInt32) (el : HtableEl) :
    (st.shfsFioOpenBentry v now el).mstats.elHt = st.mstats.elHt := by
  unfold Stats.shfsFioOpenBentry
  split <;> rfl

theorem elHt_openFound (st : Stats) (v : Vol) (now : UInt32) (x : Option HtableEl) :
    (st.openFound v now x).mstats.elHt = st.mstats.elHt := by
  cases x with
  | none => rfl
  | some el => exact elHt_openBentry st v now el

theorem grown_openh (hs : st.mstats.Sound conf) (hok : st.shfsFioOpenh v now h = .ok st') :
    st.mstats.elHt.Grown st'.mstats.elHt := by
  rcases ok_of_bind hok with ⟨st₁, hlook, hret⟩
  rw [← Except.ok.inj hret, elHt_openFound]
  exact grown_lookupHash hs hlook

theorem grown_open (hs : st.mstats.Sound conf) {path : List UInt8}
    (hok : st.shfsFioOpen v now path = .ok st') : st.mstats.elHt.Grown st'.mstats.elHt := by
  unfold Stats.shfsFioOpen at hok
  split at hok
  · cases hd : v.defBentry with
    | none =>
        rw [hd] at hok
        rw [← Except.ok.inj hok]
        exact Htable.Grown.refl _
    | some el =>
        rw [hd] at hok
        rw [← Except.ok.inj hok, elHt_openBentry]
        exact Htable.Grown.refl _
  · split at hok
    · cases hp : hashParse path.tail v.conf.hlen with
      | none =>
          rw [hp] at hok
          rw [← Except.ok.inj hok]
          exact Htable.Grown.refl _
      | some d =>
          rw [hp] at hok
          exact grown_openh hs hok
    · rw [← Except.ok.inj hok, elHt_openFound]
      unfold Stats.shfsLookupBentryByName
      cases shfsLookupBentryByName v path <;> exact Htable.Grown.refl _

/-- While files are opened and closed, the miss table grows. -/
theorem grown_call {s : Sys} {e : SysEvent} (hs : st.mstats.Sound conf) (hc : e.isCall = true)
    (hok : st.next s now e = .ok st') : st.mstats.elHt.Grown st'.mstats.elHt := by
  cases hv : s.vol with
  | none =>
      have hst : st.next s now e = .ok st := by simp [Stats.next, hv]
      rw [hst] at hok
      rw [← Except.ok.inj hok]
      exact Htable.Grown.refl _
  | some v =>
      cases e with
      | «open» path gone =>
          have hnext : st.next s now (.open path gone) =
              if s.shfsMounted then st.shfsFioOpen v now path else .ok st := by simp [Stats.next, hv]
          rw [hnext] at hok
          split at hok
          · exact grown_open hs hok
          · rw [← Except.ok.inj hok]
            exact Htable.Grown.refl _
      | openh d gone =>
          have hnext : st.next s now (.openh d gone) = st.shfsFioOpenh v now d := by simp [Stats.next, hv]
          exact grown_openh hs (hnext ▸ hok)
      | openf f | close f =>
          have hst : st = st' := by simpa [Stats.next, hv] using hok
          rw [← hst]
          exact Htable.Grown.refl _
      | _ => cases hc

end Growth

/-! ## What the dump finds -/

section Books

variable {conf : VolConf} {s : StatsSys} {v : Vol} {lb lm : List HtableEl} {el : HtableEl}

/-- An element of the bucket table is the slot of an entry that holds its digest. -/
theorem bucket_holder (hinv : StatsInv v.conf s) (hv : s.sys.vol = some v) (hidle : s.sys.locker = .idle)
    (hlb : v.bt.Listed lb) (hel : el ∈ lb) : ∃ i k, v.slot i = el ∧
      digestOf v.conf.hlen (v.bt.h el) = some k ∧ (s.stats.books v.conf v).holder i = some k := by
  rcases hinv.on with ⟨v', hv', -, hmounted, -⟩
  obtain rfl : v = v' := Option.some.inj (hv.symm.trans hv')
  rcases hmounted.table with ⟨upd, held, ht, hlock⟩
  rw [hidle] at hlock
  rcases hlock with ⟨rfl, rfl⟩
  have huse := (hlb.mem el).1 hel
  rcases ((ht.el el).stray huse).resolve_right id with ⟨i, hi, rfl⟩
  have hmirror := (hinv.mirrors v hv).all (by rw [hidle]; rfl) i hi
  have hz : hashIsZero (v.bt.h (v.slot i)) v.conf.hlen = false := by
    have hfree : hashIsZero (v.bt.h (v.slot i)) v.bt.hlen = false := huse.2
    rwa [ht.sized.2.2] at hfree
  refine ⟨i, _, rfl, digestOf_nonzero hz, ?_⟩
  rw [books_holder hi, ← digestOf_congr hmirror, digestOf_nonzero hz]

/-- A digest that an entry holds is in the bucket table. -/
theorem holder_bucket (hinv : StatsInv v.conf s) (hv : s.sys.vol = some v) (hidle : s.sys.locker = .idle)
    (hlb : v.bt.Listed lb) {i : Nat} {k : Digest v.conf.hlen}
    (hi : (s.stats.books v.conf v).holder i = some k) :
    ∃ el ∈ lb, digestOf v.conf.hlen (v.bt.h el) = some k := by
  rcases hinv.on with ⟨v', hv', -, hmounted, -⟩
  obtain rfl : v = v' := Option.some.inj (hv.symm.trans hv')
  rcases hmounted.table with ⟨upd, held, ht, -⟩
  rcases books_holder_eq_some.1 hi with ⟨hlt, hd⟩
  have hmirror := (hinv.mirrors v hv).all (by rw [hidle]; rfl) i hlt
  rw [← digestOf_congr hmirror] at hd
  refine ⟨v.slot i, (hlb.mem _).2 ⟨Htable.slot_inRange ?_, ?_⟩, hd⟩
  · rw [ht.sized.1, ht.sized.2.1]
    exact Nat.lt_of_lt_of_le hlt v.conf.nbEntries_le
  · show hashIsZero (v.bt.h (v.slot i)) v.bt.hlen = false
    rw [ht.sized.2.2]
    exact (digestOf_eq_some.1 hd).1

/-- An element of the miss table is found by its digest. -/
theorem miss_found {ms : Mstats} (hs : ms.Sound conf) (hlm : ms.elHt.Listed lm) (hel : el ∈ lm) :
    hashIsZero (ms.elHt.h el) conf.hlen = false ∧ htableLookup ms.elHt (ms.elHt.h el) = some el := by
  have hlen := hs.hlen
  rcases hs with ⟨calls, ht⟩
  rcases (hlm.mem el).1 hel with ⟨hin, hused⟩
  have hz : hashIsZero (ms.elHt.h el) conf.hlen = false := hlen ▸ hused
  refine ⟨hz, (ht.lookup (Mstats.nbBuckets_pos conf) _).trans ?_⟩
  exact (ht.holds _ el).2 ⟨_, slots_eq_some.2 ⟨hin, hused, rfl⟩, SameHash.refl _⟩

/-- An element of the miss table has the account of its digest in the store. -/
theorem miss_store (hs : s.stats.mstats.Sound v.conf) (hlm : s.stats.mstats.elHt.Listed lm) (hel : el ∈ lm) :
    ∃ k, digestOf v.conf.hlen (s.stats.mstats.elHt.h el) = some k ∧
      (s.stats.books v.conf v).store k = some (s.stats.mstats.elStats el).counts := by
  rcases miss_found hs hlm hel with ⟨hz, hlook⟩
  refine ⟨_, digestOf_nonzero hz, ?_⟩
  rw [books_store hs, Mstats.find, hlook]
  rfl

/-- A digest with an account in the store is in the miss table. -/
theorem store_miss (hs : s.stats.mstats.Sound v.conf) (hlm : s.stats.mstats.elHt.Listed lm)
    {k : Digest v.conf.hlen} {x : Nat × Nat} (hk : (s.stats.books v.conf v).store k = some x) :
    ∃ el ∈ lm, digestOf v.conf.hlen (s.stats.mstats.elHt.h el) = some k := by
  have hlen := hs.hlen
  have hb : 0 < s.stats.mstats.elHt.nbBkts := by
    rcases hs with ⟨calls, ht⟩
    have hn : s.stats.mstats.elHt.nbBkts = v.conf.htableNbBuckets := ht.geom.1
    rw [hn]
    exact Mstats.nbBuckets_pos v.conf
  rcases Option.map_eq_some_iff.1 hk with ⟨y, hfind, -⟩
  rcases Option.map_eq_some_iff.1 hfind with ⟨el, hlook, -⟩
  rcases htableLookup_some hb hlook with ⟨-, hsame, -⟩
  refine ⟨el, htableLookup_used hlm hb hlook, ?_⟩
  have hz := ((hlm.mem el).1 (htableLookup_used hlm hb hlook)).2
  have hz : hashIsZero (s.stats.mstats.elHt.h el) v.conf.hlen = false := hlen ▸ hz
  rw [hlen] at hsame
  rw [digestOf_nonzero hz, (Digest.bytes_same k _).1 hsame]

end Books

/-! ## The invariant of a dump -/

/-- The counters are those of the digest at some moment between the two logs. -/
def DumpRow.Exact (hlen : Nat) (log₀ log : List Access) (r : DumpRow) : Prop :=
  ∃ k log', digestOf hlen r.h = some k ∧ log₀ <:+ log' ∧ log' <:+ log ∧
    r.stats.counts = recorded hlen log' k

/-- Where the dump is in the lists. -/
def DumpPos.cursor : DumpPos → Cursor DumpEl
  | .walk c => c
  | .counts k _ => .here k

/-- The elements of the two tables, in the order of the dump. -/
def dumpOrder (lb lm : List HtableEl) : List DumpEl := lb.map .inl ++ lm.map .inr

/-- The invariant of a dump that began when the accesses were `log₀`. -/
structure DumpInv (log₀ : List Access) (v : Vol) (d : Dumping) : Prop where
  inv : StatsInv v.conf d.s
  kept : d.s.Kept v.conf
  idle : d.s.sys.locker = .idle
  vol : d.s.sys.vol = some v
  log : log₀ <:+ d.s.log
  place : ∃ lb lm, v.bt.Listed lb ∧ d.s.stats.mstats.elHt.Listed lm ∧
    d.pos.cursor.Follows (d.rows.map DumpRow.el) (dumpOrder lb lm)
  printed : ∀ k h, d.pos = .counts k h → h = d.s.stats.dumpHash v k
  hash : ∀ r ∈ d.rows, r.h = d.s.stats.dumpHash v r.el
  exact : ∀ r ∈ d.rows, r.Exact v.conf.hlen log₀ d.s.log

section Invariant

variable {log₀ log log' : List Access} {v : Vol} {d d' : Dumping} {lb lm : List HtableEl} {k k' : DumpEl}
  {hlen : Nat}

theorem DumpRow.Exact.mono {r : DumpRow} (h : r.Exact hlen log₀ log) (hlog : log <:+ log') :
    r.Exact hlen log₀ log' := by
  rcases h with ⟨k, log₁, hk, h₀, h₁, hcounts⟩
  exact ⟨k, log₁, hk, h₀, h₁.trans hlog, hcounts⟩

theorem mem_dumpOrder : k ∈ dumpOrder lb lm ↔ (∃ el ∈ lb, .inl el = k) ∨ ∃ el ∈ lm, .inr el = k := by
  simp [dumpOrder]

/-- The counters of an element are what is recorded of its digest. -/
theorem DumpInv.counts (hd : DumpInv log₀ v d) (hlb : v.bt.Listed lb)
    (hlm : d.s.stats.mstats.elHt.Listed lm) (hk : k ∈ dumpOrder lb lm) :
    ∃ key, digestOf v.conf.hlen (d.s.stats.dumpHash v k) = some key ∧
      (d.s.stats.dumpStats k).counts = recorded v.conf.hlen d.s.log key := by
  rcases hd.kept with ⟨v', hv', hkept⟩
  obtain rfl : v = v' := Option.some.inj (hd.vol.symm.trans hv')
  rcases mem_dumpOrder.1 hk with ⟨el, hel, rfl⟩ | ⟨el, hel, rfl⟩
  · rcases bucket_holder hd.inv hd.vol hd.idle hlb hel with ⟨i, key, rfl, hkey, hi⟩
    exact ⟨key, hkey, hkept.seated i key hi⟩
  · rcases miss_store hd.inv.sound hlm hel with ⟨key, hkey, hstore⟩
    refine ⟨key, hkey, ?_⟩
    have hfree : ∀ i, (d.s.stats.books v.conf v).holder i ≠ some key := by
      intro i hi
      rw [hkept.apart i key hi] at hstore
      cases hstore
    have htotal := hkept.stored key hfree
    rw [hstore] at htotal
    exact htotal

/-- Two elements have different digests. -/
theorem DumpInv.distinct (hd : DumpInv log₀ v d) (hlb : v.bt.Listed lb)
    (hlm : d.s.stats.mstats.elHt.Listed lm) (hk : k ∈ dumpOrder lb lm) (hk' : k' ∈ dumpOrder lb lm)
    (heq : digestOf v.conf.hlen (d.s.stats.dumpHash v k) = digestOf v.conf.hlen (d.s.stats.dumpHash v k')) :
    k = k' := by
  rcases hd.kept with ⟨v', hv', hkept⟩
  obtain rfl : v = v' := Option.some.inj (hd.vol.symm.trans hv')
  have hmixed : ∀ el ∈ lb, ∀ el' ∈ lm,
      digestOf v.conf.hlen (v.bt.h el) ≠ digestOf v.conf.hlen (d.s.stats.mstats.elHt.h el') := by
    intro el hel el' hel' hsame
    rcases bucket_holder hd.inv hd.vol hd.idle hlb hel with ⟨i, key, -, hkey, hi⟩
    rcases miss_store hd.inv.sound hlm hel' with ⟨key', hkey', hstore⟩
    rw [hkey, hkey'] at hsame
    rw [← Option.some.inj hsame, hkept.apart i key hi] at hstore
    cases hstore
  rcases mem_dumpOrder.1 hk with ⟨el, hel, rfl⟩ | ⟨el, hel, rfl⟩
  · rcases mem_dumpOrder.1 hk' with ⟨el', hel', rfl⟩ | ⟨el', hel', rfl⟩
    · rcases bucket_holder hd.inv hd.vol hd.idle hlb hel with ⟨i, key, rfl, hkey, hi⟩
      rcases bucket_holder hd.inv hd.vol hd.idle hlb hel' with ⟨j, key', rfl, hkey', hj⟩
      have hsame : some key = some key' := by rw [← hkey, ← hkey']; exact heq
      rw [hkept.single i j key hi (hsame ▸ hj)]
    · exact absurd heq (hmixed el hel el' hel')
  · rcases mem_dumpOrder.1 hk' with ⟨el', hel', rfl⟩ | ⟨el', hel', rfl⟩
    · exact absurd heq.symm (hmixed el' hel' el hel)
    · rcases miss_found hd.inv.sound hlm hel with ⟨hz, hlook⟩
      rcases miss_found hd.inv.sound hlm hel' with ⟨hz', hlook'⟩
      have hsame := heq
      simp only [Stats.dumpHash] at hsame
      rw [digestOf_nonzero hz, digestOf_nonzero hz', Option.some.injEq, Digest.of_eq_iff] at hsame
      rw [hd.inv.sound.lookup_congr hsame, hlook'] at hlook
      rw [Option.some.inj hlook]

/-- Nothing is recorded of a digest that is in no table. -/
theorem DumpInv.unrecorded (hd : DumpInv log₀ v d) (hlb : v.bt.Listed lb)
    (hlm : d.s.stats.mstats.elHt.Listed lm) {key : Digest v.conf.hlen}
    (hno : ∀ k ∈ dumpOrder lb lm, digestOf v.conf.hlen (d.s.stats.dumpHash v k) ≠ some key) :
    recorded v.conf.hlen d.s.log key = 0 := by
  rcases hd.kept with ⟨v', hv', hkept⟩
  obtain rfl : v = v' := Option.some.inj (hd.vol.symm.trans hv')
  have hfree : ∀ i, (d.s.stats.books v.conf v).holder i ≠ some key := by
    intro i hi
    rcases holder_bucket hd.inv hd.vol hd.idle hlb hi with ⟨el, hel, hkey⟩
    exact hno (.inl el) (mem_dumpOrder.2 (.inl ⟨el, hel, rfl⟩)) hkey
  rw [← hkept.stored key hfree]
  cases hstore : (d.s.stats.books v.conf v).store key with
  | none => rfl
  | some x =>
      rcases store_miss hd.inv.sound hlm hstore with ⟨el, hel, hkey⟩
      exact absurd hkey (hno (.inr el) (mem_dumpOrder.2 (.inr ⟨el, hel, rfl⟩)))

/-! ## Steps -/

/-- As long as the dump goes on, it is not at the end. -/
theorem DumpPos.cursor_ne_done {p : DumpPos} (hp : p.over = false) : p.cursor ≠ .done := by
  cases p with
  | counts k h => simp [cursor]
  | walk c =>
      rintro hdone
      have hdone : c = .done := hdone
      rw [hdone] at hp
      cases hp

theorem dumpOrder_append (lb lm new : List HtableEl) :
    dumpOrder lb (lm ++ new) = dumpOrder lb lm ++ new.map .inr := by
  simp [dumpOrder]

/-- A file is opened or closed. -/
theorem DumpInv.call {e : StatsEvent} {t : StatsSys} (hlen : v.conf.hlen ≤ 64) (hd : DumpInv log₀ v d)
    (hover : d.pos.over = false) (hc : e.1.isCall = true) (hs : carefulStats.Step d.s e t) :
    ∃ w, w.conf = v.conf ∧ DumpInv log₀ w { d with s := t } := by
  rcases Machine.restrict_step.1 hs with ⟨hroomy, hcareful⟩
  rcases statsSys_parts (Machine.restrict_step.1 hroomy).1 with ⟨hsys, hstats, hlog⟩
  rcases call_frame hd.vol hc hsys.2 with ⟨hlocker, b, hvol⟩
  rcases hd.place with ⟨lb, lm, hlb, hlm, hplace⟩
  rcases grown_call hd.inv.sound hc hstats lm hlm with ⟨new, hlm', hsame⟩
  have hhash : ∀ k ∈ dumpOrder lb lm,
      t.stats.dumpHash { v with bentry := b } k = d.s.stats.dumpHash v k := by
    intro k hk
    rcases mem_dumpOrder.1 hk with ⟨el, -, rfl⟩ | ⟨el, hel, rfl⟩
    · rfl
    · exact hsame el hel
  have hsuffix : d.s.log <:+ t.log := ⟨_, hlog.symm⟩
  refine ⟨{ v with bentry := b }, rfl, ?_⟩
  constructor
  · exact statsInv_step hlen hd.inv hroomy
  · exact (kept_step hlen hd.inv hd.kept hroomy).2 hcareful
  · exact hlocker.trans hd.idle
  · exact hvol
  · exact hd.log.trans hsuffix
  · refine ⟨lb, lm ++ new, hlb, hlm', ?_⟩
    rw [dumpOrder_append]
    exact hplace.grow (DumpPos.cursor_ne_done hover) _
  · intro k h hpos
    rw [hhash k]
    · exact hd.printed k h hpos
    · have hpos : d.pos = .counts k h := hpos
      rw [hpos] at hplace
      exact Cursor.Follows.mem hplace
  · intro r hr
    rw [hhash r.el (hplace.initial.subset (List.mem_map_of_mem hr))]
    exact hd.hash r hr
  · exact fun r hr => (hd.exact r hr).mono hsuffix

/-- The order of the dump is what its lookups lead through. -/
theorem dump_traverses (st : Stats) (hlb : v.bt.Listed lb) (hlm : st.mstats.elHt.Listed lm) :
    DList.Traverses (st.dumpNext v) (st.dumpFirst v) (dumpOrder lb lm) :=
  hlb.rep.traverses.1.onward hlm.rep.traverses.1

/-- The dump goes on. -/
theorem DumpInv.step (hd : DumpInv log₀ v d) : DumpInv log₀ v (dumpStep d v) := by
  rcases hd.place with ⟨lb, lm, hlb, hlm, hplace⟩
  have htrav := dump_traverses d.s.stats hlb hlm
  have hnone : ∀ {c : Cursor DumpEl} {k : DumpEl} {h : Hash512}, DumpPos.walk c ≠ .counts k h :=
    fun heq => by cases heq
  unfold dumpStep
  cases hpos : d.pos with
  | counts k h =>
      rw [hpos] at hplace
      have hplace : (Cursor.here k).Follows (d.rows.map DumpRow.el) (dumpOrder lb lm) := hplace
      have hprinted := hd.printed k h hpos
      rcases hd.counts hlb hlm hplace.mem with ⟨key, hkey, hcounts⟩
      refine ⟨hd.inv, hd.kept, hd.idle, hd.vol, hd.log, ⟨lb, lm, hlb, hlm, ?_⟩,
        fun _ _ heq => absurd heq hnone, ?_, ?_⟩
      · simp only [List.map_append, List.map_singleton]
        exact hplace.note
      · intro r hr
        rcases List.mem_append.1 hr with hr | hr
        · exact hd.hash r hr
        · rw [List.mem_singleton.1 hr]
          exact hprinted
      · intro r hr
        rcases List.mem_append.1 hr with hr | hr
        · exact hd.exact r hr
        · rw [List.mem_singleton.1 hr]
          exact ⟨key, d.s.log, hprinted ▸ hkey, hd.log, List.suffix_refl _, hcounts⟩
  | walk c =>
      rw [hpos] at hplace
      have hplace : c.Follows (d.rows.map DumpRow.el) (dumpOrder lb lm) := hplace
      cases c with
      | start =>
          exact ⟨hd.inv, hd.kept, hd.idle, hd.vol, hd.log, ⟨lb, lm, hlb, hlm, hplace.enter htrav⟩,
            fun _ _ heq => absurd heq hnone, hd.hash, hd.exact⟩
      | past k =>
          exact ⟨hd.inv, hd.kept, hd.idle, hd.vol, hd.log, ⟨lb, lm, hlb, hlm, hplace.advance htrav⟩,
            fun _ _ heq => absurd heq hnone, hd.hash, hd.exact⟩
      | here k =>
          refine ⟨hd.inv, hd.kept, hd.idle, hd.vol, hd.log, ⟨lb, lm, hlb, hlm, hplace⟩, ?_, hd.hash, hd.exact⟩
          rintro k' h' ⟨⟩
          rfl
      | done => exact hd

theorem DumpInv.event {e : DumpEvent} (hlen : v.conf.hlen ≤ 64) (hd : DumpInv log₀ v d)
    (hs : dumping.Step d e d') : ∃ w, w.conf = v.conf ∧ DumpInv log₀ w d' := by
  rcases hs with ⟨hen, hnext⟩
  cases e with
  | dump =>
      have hnext : Except.ok ((d.s.sys.vol.map (dumpStep d)).getD d) = .ok d' := hnext
      rw [hd.vol] at hnext
      rw [← Except.ok.inj hnext]
      exact ⟨v, rfl, hd.step⟩
  | call e =>
      rcases hen with ⟨hover, hc, hen⟩
      have hnext : (carefulStats.next d.s e).map (fun s => { d with s := s }) = .ok d' := hnext
      cases hok : carefulStats.next d.s e with
      | error f =>
          rw [hok] at hnext
          cases hnext
      | ok t =>
          rw [hok] at hnext
          rw [← Except.ok.inj hnext]
          exact hd.call hlen hover hc ⟨hen, hok⟩

end Invariant

/-! ## Whole dumps -/

/-- What a dump is worth: each row has the counters that its digest had at some moment of the dump, no digest
has two rows, and of a digest without one nothing is recorded up to the end of the dump. -/
structure DumpConsistent (hlen : Nat) (log₀ log : List Access) (rows : List DumpRow) : Prop where
  exact : ∀ r ∈ rows, r.Exact hlen log₀ log
  once : (rows.map fun r => digestOf hlen r.h).Nodup
  complete : ∀ k : Digest hlen, (∀ r ∈ rows, digestOf hlen r.h ≠ some k) → recorded hlen log k = 0

/-- A dump that has gone through both tables is consistent. -/
theorem DumpInv.consistent {log₀ : List Access} {v : Vol} {d : Dumping} (hd : DumpInv log₀ v d)
    (hover : d.pos.over = true) : DumpConsistent v.conf.hlen log₀ d.s.log d.rows := by
  rcases hd.place with ⟨lb, lm, hlb, hlm, hplace⟩
  have hall : d.rows.map DumpRow.el = dumpOrder lb lm := by
    cases hpos : d.pos with
    | counts k h =>
        rw [hpos] at hover
        cases hover
    | walk c =>
        rw [hpos] at hover hplace
        cases c with
        | done => exact hplace
        | _ => cases hover
  have hhash : d.rows.map (fun r => digestOf v.conf.hlen r.h) =
      (dumpOrder lb lm).map fun k => digestOf v.conf.hlen (d.s.stats.dumpHash v k) := by
    rw [← hall, List.map_map]
    exact List.map_congr_left fun r hr => by rw [hd.hash r hr]; rfl
  have hnodup : (dumpOrder lb lm).Nodup := by
    refine List.Nodup.append (hlb.rep.nodup.map Sum.inl_injective) (hlm.rep.nodup.map Sum.inr_injective) ?_
    intro k hk hk'
    rcases List.mem_map.1 hk with ⟨el, -, rfl⟩
    rcases List.mem_map.1 hk' with ⟨el', -, heq⟩
    cases heq
  constructor
  · exact hd.exact
  · rw [hhash]
    exact hnodup.map_on fun k hk k' hk' heq => hd.distinct hlb hlm hk hk' heq
  · intro key hno
    apply hd.unrecorded hlb hlm
    intro k hk hkey
    rw [← hall] at hk
    rcases List.mem_map.1 hk with ⟨r, hr, rfl⟩
    exact hno r hr (by rw [hd.hash r hr]; exact hkey)

/-- A dump of the statistics, with files opened and closed and digests missed in any order between its steps:
when it has gone through both tables, it has told of each digest once at most, with counters that the digest
had while the dump went on, and of a digest that it has not told of there was no access. The statistics are
those of a careful run from a mount with one entry a digest. -/
theorem dump_consistent {conf : VolConf} {rd : Nat → Option Bytes} {v : Vol} {es : List StatsEvent}
    {s : StatsSys} {ds : List DumpEvent} {d : Dumping} (hlen : conf.hlen ≤ 64)
    (hload : loadVolHtable conf rd = .ok (.ok v)) (hdist : v.Distinct)
    (hrun : carefulStats.Run (StatsSys.mounted v) es s) (hidle : s.sys.locker = .idle)
    (hdump : dumping.Run ⟨s, .walk .start, []⟩ ds d) (hover : d.pos.over = true) :
    DumpConsistent conf.hlen s.log d.s.log d.rows := by
  rcases statsInv_mounted hload with ⟨rfl, hinv⟩
  have hboth : StatsInv v.conf s ∧ s.Kept v.conf := by
    refine hrun.invariant (I := fun s => StatsInv v.conf s ∧ s.Kept v.conf) ?_ ⟨hinv, (kept_mounted v).2 hdist⟩
    rintro s e t ⟨hi, hk⟩ hs
    rcases Machine.restrict_step.1 hs with ⟨hroomy, hcareful⟩
    exact ⟨statsInv_step hlen hi hroomy, (kept_step hlen hi hk hroomy).2 hcareful⟩
  rcases hboth.1.on with ⟨w, hw, hconf, hmounted, -⟩
  rcases hmounted.table with ⟨upd, held, ht, -⟩
  rcases ht.listed with ⟨lb, hlb⟩
  rcases hboth.1.sound with ⟨calls, htracks⟩
  rcases htracks.listed with ⟨lm, hlm⟩
  have hstart : DumpInv s.log w ⟨s, .walk .start, []⟩ := by
    refine ⟨hconf ▸ hboth.1, hconf ▸ hboth.2, hidle, hw, List.suffix_refl _, ⟨lb, lm, hlb, hlm, rfl⟩, ?_, ?_, ?_⟩
    · rintro k h ⟨⟩
    · exact List.forall_mem_nil _
    · exact List.forall_mem_nil _
  have hend : ∃ w', w'.conf = v.conf ∧ DumpInv s.log w' d := by
    refine hdump.invariant (I := fun d => ∃ w', w'.conf = v.conf ∧ DumpInv s.log w' d) ?_ ⟨w, hconf, hstart⟩
    rintro d e d' ⟨u, hu, hd⟩ hs
    rcases hd.event (hu ▸ hlen) hs with ⟨u', hu', hd'⟩
    exact ⟨u', hu'.trans hu, hd'⟩
  rcases hend with ⟨w', hw', hd⟩
  rw [← hw']
  exact hd.consistent hover

/-- While the dump is at the file with the digest 8, another digest is missed and the file is opened again. -/
def dumpTwo : List DumpEvent :=
  [.dump, .call (.openh (oneDigest 9) none, 5), .dump, .call (.openh (oneDigest 8) none, 6), .dump, .dump,
    .call (.openh (oneDigest 9) none, 7), .dump, .dump, .dump]

theorem dump_consistent_two : ∃ (v : Vol) (s : StatsSys) (d : Dumping),
    carefulStats.Run (StatsSys.mounted v) [(.openh (oneDigest 8) none, 1)] s ∧
    d.rows.map (fun r => r.stats.counts) = [(2, 0), (0, 2)] ∧
    DumpConsistent byteArgs.conf.hlen s.log d.s.log d.rows := by
  have hruns : statsRuns carefulStats (oneDigest 8) [(.openh (oneDigest 8) none, 1)] (fun v s =>
      decide (v.Distinct ∧ s.sys.locker = .idle) && (dumping.exec ⟨s, .walk .start, []⟩ dumpTwo).any fun d =>
        decide (d.pos.over = true ∧ d.rows.map (fun r => r.stats.counts) = [(2, 0), (0, 2)])) = true := by
    decide +kernel
  rcases statsRuns_spec hruns with ⟨v, s, hload, hrun, hp⟩
  rcases Bool.and_eq_true_iff.1 hp with ⟨hfirst, hsecond⟩
  rcases of_decide_eq_true hfirst with ⟨hdist, hidle⟩
  rcases Machine.Run.of_exec_any hsecond with ⟨d, hdump, hd⟩
  rcases of_decide_eq_true hd with ⟨hover, hrows⟩
  exact ⟨v, s, d, hrun, hrows, dump_consistent (by decide) hload hdist hrun hidle hdump hover⟩

end Minipython.Shfs
