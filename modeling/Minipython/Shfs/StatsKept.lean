/-
# Minipython.Shfs.StatsKept — no access is lost from the statistics (shfs_stats.h, shfs_fio.c, shfs.c)

Moving the counters of a digest with its entry is a change of holder, and it loses nothing if the new digest of
the entry has no statistics that are left behind. A digest that replaces another, or that still is in a
second entry, has: its counters stay in the miss table or go there a moment later, while the entry starts from
zero. `Careful` is what a step has to avoid.

The statistics of a digest are those in the entry that has it, by its cached copy, or else those in the miss
table. A step changes the holder of a digest at three places: an open that finds no entry adds the digest to
the miss table, a remount that takes a digest away moves its counters there, and one that brings a digest
takes them from there. `Kept` says that each digest has one holder and that the counts agree with the
accesses so far; `kept_step` is the exact condition under which a step keeps it.

A run that loses something has a first step that does. It cannot be undone by a later one, so
`no_access_lost` is an equivalence for runs. The miss table has room in these runs (`roomyStats`); without
room an access is not counted at all.
-/
import Minipython.Shfs.StatsStep
import Minipython.Tools.MkfsArgs

namespace Minipython.Shfs

open Minipython.Lib Minipython.Tools

/-! ## The property -/

/-- Every digest has its hits and misses in one place, and they are those of the log. -/
def StatsSys.Kept (s : StatsSys) (conf : VolConf) : Prop :=
  ∃ v, s.sys.vol = some v ∧ (s.stats.books conf v).Kept (recorded conf.hlen s.log)

/-- The hits and misses that are recorded for a digest, in `hstats` of its entry if it has one. -/
noncomputable def StatsSys.located (s : StatsSys) (conf : VolConf) (k : Digest conf.hlen) : Nat × Nat :=
  match s.sys.vol with
  | some v => (s.stats.books conf v).located k
  | none => 0

/-- In every state along the events, every digest has its statistics in one place, and from one such state to a
later one its counts do not decrease. -/
structure NoAccessLost (conf : VolConf) (s : StatsSys) (es : List StatsEvent) : Prop where
  kept : ∀ es₁ es₂ t, es = es₁ ++ es₂ → roomyStats.Run s es₁ t → t.Kept conf
  mono : ∀ es₁ es₂ es₃ t u, es = es₁ ++ (es₂ ++ es₃) → roomyStats.Run s es₁ t → roomyStats.Run t es₂ u →
    ∀ k, t.located conf k ≤ u.located conf k

/-! ## The condition -/

/-- An entry has the digest, by its cached copy. -/
def Vol.Caches (v : Vol) (h : Hash512) : Prop :=
  ∃ i, i < v.conf.htableNbEntries ∧ SameHash v.conf.hlen (tableEntry v.conf v.htableChunkCache i) h

/-- No two entries have one digest. -/
def Vol.Distinct (v : Vol) : Prop :=
  ∀ i, i < v.conf.htableNbEntries → ∀ j, j < v.conf.htableNbEntries →
    hashIsZero (tableEntry v.conf v.htableChunkCache i) v.conf.hlen = false →
    SameHash v.conf.hlen (tableEntry v.conf v.htableChunkCache i) (tableEntry v.conf v.htableChunkCache j) →
    i = j

/-- The counter is not at its largest value, and no entry still has a digest that is missed. -/
def CarefulAccess (v : Vol) (st : Stats) : Access → Prop
  | .hit el h => hashIsZero h v.conf.hlen = true ∨ (st.hstats el).h.toNat + 1 < u32Size
  | .miss h => hashIsZero h v.conf.hlen = true ∨
      ¬ v.Caches h ∧ ((st.mstats.find h).getD ElStats.zero).m.toNat + 1 < u32Size

/-- The new digest of an entry is in no entry yet, and in the miss table only if there was no old one. -/
def CarefulSwap (v : Vol) (st : Stats) (old new : Hentry) : Prop :=
  hashIsZero new v.conf.hlen = true ∨
    ¬ v.Caches new ∧ (hashIsZero old v.conf.hlen = true ∨ st.mstats.find new = none)

/-- What keeps the statistics whole. -/
def Careful (s : StatsSys) (e : StatsEvent) : Prop :=
  ∀ v, s.sys.vol = some v → (∀ a, s.sys.access e.1 = some a → CarefulAccess v s.stats a) ∧
    ∀ x, s.sys.swap e.1 = some x → CarefulSwap v s.stats x.old x.new

instance (v : Vol) : Decidable v.Distinct :=
  inferInstanceAs (Decidable (∀ i, i < _ → ∀ j, j < _ → _ → _ → _))

instance (v : Vol) (h : Hash512) : Decidable (v.Caches h) :=
  inferInstanceAs (Decidable (∃ i, i < _ ∧ _))

instance (v : Vol) (st : Stats) : DecidablePred (CarefulAccess v st) := fun a =>
  match a with
  | .hit .. => inferInstanceAs (Decidable (_ ∨ _))
  | .miss _ => inferInstanceAs (Decidable (_ ∨ ¬ _ ∧ _))

instance (v : Vol) (st : Stats) (old new : Hentry) : Decidable (CarefulSwap v st old new) :=
  inferInstanceAs (Decidable (_ ∨ ¬ _ ∧ (_ ∨ _)))

instance (s : StatsSys) (e : StatsEvent) : Decidable (Careful s e) :=
  inferInstanceAs (Decidable (∀ v, s.sys.vol = some v → _ ∧ _))

/-! ## The invariant of a run -/

/-- What every run keeps, careful or not. -/
structure StatsInv (conf : VolConf) (s : StatsSys) : Prop where
  on : MountedOn False conf s.sys
  mirrors : ∀ v, s.sys.vol = some v → Mirrors v s.sys.locker
  sound : s.stats.mstats.Sound conf

theorem statsInv_mounted {conf : VolConf} {rd : Nat → Option Bytes} {v : Vol}
    (h : loadVolHtable conf rd = .ok (.ok v)) : v.conf = conf ∧ StatsInv conf (StatsSys.mounted v) := by
  have hon : MountedOn False conf (Sys.mounted v) := mountedOn_load h
  rcases loadVolHtable_cases conf rd with herr | ⟨v', hok, hconf, hload⟩
  · rw [herr] at h
    cases h
  · obtain rfl : v' = v := by simpa [hok] using h
    refine ⟨hconf, hon, ?_, hconf ▸ Mstats.sound_init v'.conf⟩
    rintro w ⟨⟩
    subst hconf
    exact mirrors_quiet rfl hload.hash

section Step

variable {s t : StatsSys} {v : Vol} {e : StatsEvent}

/-- The parts of a step. -/
theorem statsSys_parts (hs : statsSys.Step s e t) : mountedSys.Step s.sys e.1 t.sys ∧
    s.stats.next s.sys e.2 e.1 = .ok t.stats ∧ t.log = (s.sys.access e.1).toList ++ s.log := by
  obtain ⟨hen, hnext⟩ := hs
  obtain ⟨st, hst, hrest⟩ := ok_of_bind hnext
  obtain ⟨y, hy, hret⟩ := ok_of_bind hrest
  obtain rfl := Except.ok.inj hret
  exact ⟨⟨hen, hy⟩, hst, rfl⟩

/-- An event that is neither an open nor the end of an update leaves the statistics alone. -/
theorem quiet_effect {w : Vol} (hstats : s.stats.next s.sys e.2 e.1 = .ok t.stats)
    (hnext : s.stats.next s.sys e.2 e.1 = .ok s.stats) (ha : s.sys.access e.1 = none)
    (hw : s.sys.swap e.1 = none) (hcache : w.htableChunkCache = v.htableChunkCache)
    (hslot : w.slot = v.slot) (hsound : s.stats.mstats.Sound v.conf) :
    t.stats.mstats.Sound v.conf ∧
      Effect s.stats v e.2 (t.stats.books v.conf w) (s.sys.access e.1) (s.sys.swap e.1) := by
  rw [hnext] at hstats
  rw [← Except.ok.inj hstats, ha, hw]
  exact ⟨hsound, .quiet (books_congr hcache hslot rfl rfl)⟩

/-- A call of `shfs_fio_*`. -/
theorem call_effect {counted : Prop} {w : Vol} {b : HtableEl → Bentry} (hinv : MountedInv counted s.sys v) (hv : s.sys.vol = some v)
    (hm : Mirrors v s.sys.locker) (hsound : s.stats.mstats.Sound v.conf) (hc : e.1.isCall = true)
    (hroom : ∀ a, s.sys.access e.1 = some a → s.stats.mstats.RoomFor a)
    (hstats : s.stats.next s.sys e.2 e.1 = .ok t.stats) (hw : w = { v with bentry := b }) :
    t.stats.mstats.Sound v.conf ∧
      Effect s.stats v e.2 (t.stats.books v.conf w) (s.sys.access e.1) (s.sys.swap e.1) := by
  have hbooks : t.stats.books v.conf w = t.stats.books v.conf v := by
    rw [hw]
    exact books_congr rfl rfl rfl rfl
  obtain ⟨ev, now⟩ := e
  cases ev with
  | «open» path gone =>
      have haccess : s.sys.access (.open path gone) = accessPath v path := by
        simp [Sys.access, hv, hinv.flag]
      have hnext : s.stats.next s.sys now (.open path gone) = s.stats.shfsFioOpen v now path := by
        simp [Stats.next, hv, hinv.flag]
      have hswap : s.sys.swap (.open path gone) = none := by simp [Sys.swap, hv]
      rw [haccess] at hroom
      obtain ⟨st, hok, hst, heff⟩ := openPath_effect hinv hm hsound hroom
      rw [hnext, hok] at hstats
      rw [haccess, hswap, hbooks, ← Except.ok.inj hstats]
      exact ⟨hst, heff⟩
  | openh d gone =>
      have haccess : s.sys.access (.openh d gone) = accessHash v d := by simp [Sys.access, hv]
      have hnext : s.stats.next s.sys now (.openh d gone) = s.stats.shfsFioOpenh v now d := by
        simp [Stats.next, hv]
      have hswap : s.sys.swap (.openh d gone) = none := by simp [Sys.swap, hv]
      rw [haccess] at hroom
      obtain ⟨st, hok, hst, heff⟩ := openHash_effect hinv hm hsound hroom
      rw [hnext, hok] at hstats
      rw [haccess, hswap, hbooks, ← Except.ok.inj hstats]
      exact ⟨hst, heff⟩
  | openf f =>
      subst hw
      exact quiet_effect hstats (by simp [Stats.next, hv]) (by simp [Sys.access, hv])
        (by simp [Sys.swap, hv]) rfl rfl hsound
  | close f =>
      subst hw
      exact quiet_effect hstats (by simp [Stats.next, hv]) (by simp [Sys.access, hv])
        (by simp [Sys.swap, hv]) rfl rfl hsound
  | _ => cases hc

/-- A step is one operation on the accounts. -/
theorem statsSys_effect (hlen : v.conf.hlen ≤ 64) (h : StatsInv v.conf s) (hv : s.sys.vol = some v)
    (hs : roomyStats.Step s e t) : StatsInv v.conf t ∧ ∃ w, t.sys.vol = some w ∧
      Effect s.stats v e.2 (t.stats.books v.conf w) (s.sys.access e.1) (s.sys.swap e.1) := by
  obtain ⟨hs, hmiss, hmove⟩ := Machine.restrict_step.1 hs
  obtain ⟨hsys, hstats, -⟩ := statsSys_parts hs
  obtain ⟨v', hv', -, hinv, hr⟩ := h.on
  obtain rfl : v' = v := Option.some.inj (hv'.symm.trans hv)
  have hm := h.mirrors v' hv
  obtain ⟨w, hw, hcase⟩ := mountedSys_cases hinv hv hr hsys
  have hmir := mirrors_step hinv hlen hm hcase
  suffices heff : t.stats.mstats.Sound v'.conf ∧
      Effect s.stats v' e.2 (t.stats.books v'.conf w) (s.sys.access e.1) (s.sys.swap e.1) by
    refine ⟨⟨mountedOn_step h.on False.elim hsys, fun w' hw' => ?_, heff.1⟩, w, hw, heff.2⟩
    rwa [← Option.some.inj (hw.symm.trans hw')]
  obtain ⟨ev, now⟩ := e
  have hnone : s.sys.access .locker = none := by simp [Sys.access, hv]
  cases hcase with
  | call hc hto hw =>
      obtain ⟨b, hw⟩ := hw
      exact call_effect hinv hv hm h.sound hc hmiss hstats hw
  | remount hfrom hto hw =>
      subst hw
      exact quiet_effect hstats (by simp [Stats.next, hv]) (by simp [Sys.access, hv])
        (by simp [Sys.swap, hv]) rfl rfl h.sound
  | readError hfrom hto hw =>
      subst hw
      exact quiet_effect hstats (by simp [Stats.next, hv]) (by simp [Sys.access, hv])
        (by simp [Sys.swap, hv]) rfl rfl h.sound
  | readChunk hfrom hto hw =>
      subst hw
      exact quiet_effect hstats (by simp [Stats.next, hv]) (by simp [Sys.access, hv])
        (by simp [Sys.swap, hv]) rfl rfl h.sound
  | feed hfrom hto hw =>
      exact quiet_effect hstats (by simp [Stats.next, hv, hfrom]) hnone
        (by simp [Sys.swap, hv, hfrom]) hw.chunkCache (funext hw.slot) h.sound
  | take hfrom hto hw =>
      obtain ⟨b, rfl⟩ := hw
      exact quiet_effect hstats (by simp [Stats.next, hv, hfrom]) hnone
        (by simp [Sys.swap, hv, hfrom]) rfl rfl h.sound
  | unlock hfrom hto hw =>
      subst hw
      exact quiet_effect hstats (by simp [Stats.next, hv, hfrom]) hnone
        (by simp [Sys.swap, hv, hfrom]) rfl rfl h.sound
  | @update c en nchk el hfrom hto hw =>
      subst hw
      obtain ⟨st, hok, hst, heff⟩ := update_effect hinv hv hlen hfrom h.sound hmove
      have hnext : s.stats.next s.sys now .locker = s.stats.reloadUpdate v' c en nchk el := by
        simp [Stats.next, hv, hfrom]
      have hstats : s.stats.next s.sys now .locker = .ok t.stats := hstats
      rw [hnext, hok] at hstats
      rw [← Except.ok.inj hstats]
      show _ ∧ Effect _ _ _ _ (s.sys.access .locker) (s.sys.swap .locker)
      rw [hnone]
      exact ⟨hst, heff⟩

end Step

/-! ## One step -/

section Rules

variable {v : Vol} {st : Stats} {log : List Access}

/-- The holders of a digest are the entries that have it. -/
theorem caches_iff (st : Stats) {h : Hash512} (hz : hashIsZero h v.conf.hlen = false) :
    v.Caches h ↔ ∃ i, (st.books v.conf v).holder i = some (Digest.of v.conf.hlen h) := by
  constructor
  · rintro ⟨i, hi, hs⟩
    refine ⟨i, books_holder_eq_some.2 ⟨hi, ?_⟩⟩
    rw [digestOf_congr hs, digestOf_nonzero hz]
  · rintro ⟨i, hi⟩
    obtain ⟨hi, hd⟩ := books_holder_eq_some.1 hi
    exact ⟨i, hi, Digest.of_eq_iff.1 (digestOf_eq_some.1 hd).2⟩

/-- A counter is one more than before exactly if it was not at its largest value. -/
theorem toNat_succ_iff (x : UInt32) : (x + 1).toNat = x.toNat + 1 ↔ x.toNat + 1 < u32Size := by
  have hx : x.toNat < 2 ^ 32 := UInt32.toNat_lt x
  rw [UInt32.toNat_add, UInt32.toNat_one]
  unfold u32Size
  omega

theorem hit_counts (x : ElStats) (now : UInt32) :
    (x.hit now).counts = x.counts + (1, 0) ↔ x.h.toNat + 1 < u32Size := by
  show (((x.h + 1).toNat, x.m.toNat) : Nat × Nat) = (x.h.toNat + 1, x.m.toNat + 0) ↔ _
  rw [Prod.mk.injEq, toNat_succ_iff]
  exact and_iff_left rfl

theorem miss_counts (x : ElStats) (now : UInt32) :
    (x.miss now).counts = x.counts + (0, 1) ↔ x.m.toNat + 1 < u32Size := by
  show ((x.h.toNat, (x.m + 1).toNat) : Nat × Nat) = (x.h.toNat + 0, x.m.toNat + 1) ↔ _
  rw [Prod.mk.injEq, toNat_succ_iff]
  exact and_iff_right rfl

theorem hit_kept {i : Nat} {h : Hash512} {now : UInt32}
    (hb : (st.books v.conf v).Kept (recorded v.conf.hlen log))
    (hi : (st.books v.conf v).holder i = digestOf v.conf.hlen h) :
    ((st.books v.conf v).post i ((st.hstats (v.slot i)).hit now).counts).Kept
      (recorded v.conf.hlen (.hit (v.slot i) h :: log)) ↔ CarefulAccess v st (.hit (v.slot i) h) := by
  by_cases hz : hashIsZero h v.conf.hlen = true
  · rw [recorded_none (fun k => rfl) (digestOf_zero hz)]
    rw [digestOf_zero hz] at hi
    exact iff_of_true ((Books.kept_post_void hi).2 hb) (.inl hz)
  · have hz : hashIsZero h v.conf.hlen = false := by simpa using hz
    rw [recorded_some (fun k => rfl) (digestOf_nonzero hz)]
    rw [digestOf_nonzero hz] at hi
    refine (hb.post_iff hi).trans ((hit_counts _ _).trans ?_)
    show _ ↔ hashIsZero h v.conf.hlen = true ∨ _
    rw [hz]
    exact ⟨.inr, fun hc => hc.resolve_left Bool.false_ne_true⟩

theorem miss_kept {h : Hash512} {now : UInt32}
    (hb : (st.books v.conf v).Kept (recorded v.conf.hlen log)) (hs : st.mstats.Sound v.conf)
    (hz : hashIsZero h v.conf.hlen = false) :
    ((st.books v.conf v).postStore (Digest.of v.conf.hlen h)
      (((st.mstats.find h).getD ElStats.zero).miss now).counts).Kept
      (recorded v.conf.hlen (.miss h :: log)) ↔ CarefulAccess v st (.miss h) := by
  rw [recorded_some (fun k => rfl) (digestOf_nonzero hz)]
  refine hb.postStore_iff.trans ?_
  rw [books_store hs, getD_counts, miss_counts]
  show _ ↔ hashIsZero h v.conf.hlen = true ∨ _
  rw [hz, caches_iff st hz, not_exists]
  exact ⟨.inr, fun hc => hc.resolve_left Bool.false_ne_true⟩

theorem missZero_kept {h : Hash512} (hb : (st.books v.conf v).Kept (recorded v.conf.hlen log))
    (hz : hashIsZero h v.conf.hlen = true) :
    (st.books v.conf v).Kept (recorded v.conf.hlen (.miss h :: log)) ↔ CarefulAccess v st (.miss h) := by
  rw [recorded_none (fun k => rfl) (digestOf_zero hz)]
  exact iff_of_true hb (.inl hz)

theorem swap_kept {i : Nat} {old new : Hentry} {total : Digest v.conf.hlen → Nat × Nat}
    (hb : (st.books v.conf v).Kept total) (hs : st.mstats.Sound v.conf)
    (hd : hashCompare old new v.conf.hlen = true)
    (hi : (st.books v.conf v).holder i = digestOf v.conf.hlen old) :
    ((st.books v.conf v).replace i (digestOf v.conf.hlen new)).Kept total ↔ CarefulSwap v st old new := by
  rw [hb.replace_iff (hi ▸ digestOf_ne hd)]
  unfold CarefulSwap
  by_cases hz : hashIsZero new v.conf.hlen = true
  · rw [digestOf_zero hz]
    exact iff_of_true (fun n hn => by cases hn) (.inl hz)
  · have hz : hashIsZero new v.conf.hlen = false := by simpa using hz
    have hfree : (st.books v.conf v).holder i = none ↔ hashIsZero old v.conf.hlen = true := by
      rw [hi]
      by_cases hzo : hashIsZero old v.conf.hlen = true
      · exact iff_of_true (digestOf_zero hzo) hzo
      · rw [digestOf_nonzero (by simpa using hzo)]
        exact iff_of_false (Option.some_ne_none _) hzo
    have hstore : (st.books v.conf v).store (Digest.of v.conf.hlen new) = none ↔
        st.mstats.find new = none := by
      rw [books_store hs, Option.map_eq_none_iff]
    rw [digestOf_nonzero hz, hz, caches_iff st hz, not_exists, ← hfree, ← hstore]
    constructor
    · exact fun hn => .inr (hn _ rfl)
    · rintro (hc | hc) n hn
      · exact absurd hc Bool.false_ne_true
      · obtain rfl := Option.some.inj hn
        exact hc

end Rules

/-- A step keeps the statistics whole exactly if it is careful. -/
theorem kept_step {conf : VolConf} {s t : StatsSys} {e : StatsEvent} (hlen : conf.hlen ≤ 64)
    (h : StatsInv conf s) (hk : s.Kept conf) (hs : roomyStats.Step s e t) :
    t.Kept conf ↔ Careful s e := by
  obtain ⟨v, hv, rfl, -⟩ := id h.on
  obtain ⟨v', hv', hb⟩ := hk
  obtain rfl : v = v' := Option.some.inj (hv.symm.trans hv')
  obtain ⟨-, w, hw, heff⟩ := statsSys_effect hlen h hv hs
  obtain ⟨-, -, hlog⟩ := statsSys_parts (Machine.restrict_step.1 hs).1
  have hkept : t.Kept v.conf ↔ (t.stats.books v.conf w).Kept (recorded v.conf.hlen t.log) := by
    constructor
    · rintro ⟨w', hw', hkw⟩
      obtain rfl : w = w' := Option.some.inj (hw.symm.trans hw')
      exact hkw
    · exact fun hkw => ⟨w, hw, hkw⟩
  have hcareful : Careful s e ↔ (∀ a, s.sys.access e.1 = some a → CarefulAccess v s.stats a) ∧
      ∀ x, s.sys.swap e.1 = some x → CarefulSwap v s.stats x.old x.new := by
    constructor
    · exact fun hc => hc v hv
    · rintro hc v' hv'
      obtain rfl : v = v' := Option.some.inj (hv.symm.trans hv')
      exact hc
  rw [hkept, hcareful, hlog]
  generalize s.sys.access e.1 = a at *
  generalize s.sys.swap e.1 = x at *
  cases heff with
  | quiet hbooks =>
      rw [hbooks]
      simpa using hb
  | hit hi hbooks =>
      rw [hbooks]
      simpa using hit_kept hb hi
  | missZero hz hbooks =>
      rw [hbooks]
      simpa using missZero_kept hb hz
  | miss hz hbooks =>
      rw [hbooks]
      simpa using miss_kept hb h.sound hz
  | swap hd hi hbooks =>
      rw [hbooks]
      simpa using swap_kept hb h.sound hd hi

/-! ## Whole runs -/

/-- A freshly mounted volume has no statistics, so they are whole exactly if no two entries have one digest. -/
theorem kept_mounted (v : Vol) : (StatsSys.mounted v).Kept v.conf ↔ v.Distinct := by
  have hempty : ((StatsSys.mounted v).stats.books v.conf v).Kept (recorded v.conf.hlen []) ↔ _ :=
    Books.kept_empty (fun i => rfl) fun k => Option.map_eq_none_iff.2 (Mstats.find_init v.conf k.bytes)
  have hkept : (StatsSys.mounted v).Kept v.conf ↔
      ((StatsSys.mounted v).stats.books v.conf v).Kept (recorded v.conf.hlen []) := by
    constructor
    · rintro ⟨w, ⟨⟩, hk⟩
      exact hk
    · exact fun hk => ⟨v, rfl, hk⟩
  rw [hkept, hempty]
  constructor
  · intro h i hi j hj hz hs
    refine h i j _ (books_holder_eq_some.2 ⟨hi, digestOf_nonzero hz⟩) (books_holder_eq_some.2 ⟨hj, ?_⟩)
    rw [← digestOf_congr hs]
    exact digestOf_nonzero hz
  · intro h i j k hi hj
    obtain ⟨hi', hki⟩ := books_holder_eq_some.1 hi
    obtain ⟨hj', hkj⟩ := books_holder_eq_some.1 hj
    obtain ⟨hz, rfl⟩ := digestOf_eq_some.1 hki
    exact h i hi' j hj' hz (Digest.of_eq_iff.1 (digestOf_eq_some.1 hkj).2.symm)

theorem statsInv_step {conf : VolConf} {s t : StatsSys} {e : StatsEvent} (hlen : conf.hlen ≤ 64)
    (h : StatsInv conf s) (hs : roomyStats.Step s e t) : StatsInv conf t := by
  obtain ⟨v, hv, rfl, -⟩ := id h.on
  exact (statsSys_effect hlen h hv hs).1

/-- The log grows at its front. -/
theorem log_suffix {s t : StatsSys} {es : List StatsEvent} (hrun : roomyStats.Run s es t) :
    ∃ l, t.log = l ++ s.log := by
  induction hrun with
  | nil s => exact ⟨[], rfl⟩
  | @cons s t u e es hstep _ ih =>
      obtain ⟨-, -, hlog⟩ := statsSys_parts (Machine.restrict_step.1 hstep).1
      obtain ⟨l, hl⟩ := ih
      exact ⟨l ++ (s.sys.access e.1).toList, by rw [hl, hlog, List.append_assoc]⟩

/-- Whole statistics do not decrease. -/
theorem located_mono {conf : VolConf} {s t : StatsSys} {es : List StatsEvent} (hs : s.Kept conf)
    (ht : t.Kept conf) (hrun : roomyStats.Run s es t) (k : Digest conf.hlen) :
    s.located conf k ≤ t.located conf k := by
  obtain ⟨v, hv, hkv⟩ := hs
  obtain ⟨w, hw, hkw⟩ := ht
  obtain ⟨l, hl⟩ := log_suffix hrun
  unfold StatsSys.located
  rw [hv, hw]
  refine hkv.located_le hkw (fun k => ?_) k
  rw [hl]
  exact recorded_le l k

/-- No access is lost in a run if and only if it starts with one entry a digest and all its steps are
careful. Not lost is: in every state of the run each digest has its statistics in one place, and between any
two of its states no count has become smaller. -/
theorem no_access_lost {conf : VolConf} {rd : Nat → Option Bytes} {v : Vol} {es : List StatsEvent}
    {t : StatsSys} (hlen : conf.hlen ≤ 64) (hload : loadVolHtable conf rd = .ok (.ok v))
    (hrun : roomyStats.Run (StatsSys.mounted v) es t) :
    NoAccessLost conf (StatsSys.mounted v) es ↔
      v.Distinct ∧ (roomyStats.restrict Careful).Run (StatsSys.mounted v) es t := by
  obtain ⟨hconf, hinv⟩ := statsInv_mounted hload
  have hstart : (StatsSys.mounted v).Kept conf ↔ v.Distinct := hconf ▸ kept_mounted v
  have hall := fun hk => hrun.all_iff_restrict (fun s e u hi hs => statsInv_step hlen hi hs)
    (fun s e u hi hk hs => kept_step hlen hi hk hs) hinv hk
  constructor
  · intro hno
    have hk : (StatsSys.mounted v).Kept conf := hno.kept [] es _ rfl (.nil _)
    exact ⟨hstart.1 hk, (hall hk).1 hno.kept⟩
  · rintro ⟨hdist, hcareful⟩
    have hkept := (hall (hstart.2 hdist)).2 hcareful
    refine ⟨hkept, fun es₁ es₂ es₃ s u hes h1 h2 k => ?_⟩
    have hs := hkept es₁ (es₂ ++ es₃) s hes h1
    have hu := hkept (es₁ ++ es₂) es₃ u (by rw [hes, List.append_assoc]) (h1.append h2)
    exact located_mono hs hu h2 k

/-! ## Two volumes -/

/-- A table of one chunk, with digests of one byte that are chosen by hand. -/
def byteArgs : MkfsArgs := chunkArgs.byHand

/-- A table chunk in which the first entry has the digest `x`, and no other has one. -/
def oneDigest (x : UInt8) : Bytes := fun i => if i = 0 then x else 0

/-- A remount that reads the chunk `d`, from the start to the release of the mount lock. -/
def wholeRemount (d : Bytes) : List StatsEvent :=
  (.remount, 2) :: (.readDone (some d), 3) :: List.replicate 49 (.locker, 4)

/-- The events can happen on a volume with the table chunk `d`, and `p` holds behind them. -/
def statsRuns (m : Machine StatsSys StatsEvent Fault) [∀ s e, Decidable (m.Enabled s e)] (d : Bytes)
    (es : List StatsEvent) (p : Vol → StatsSys → Bool) : Bool :=
  match loadVolHtable byteArgs.conf fun _ => some d with
  | .ok (.ok v) => (m.exec (StatsSys.mounted v) es).any (p v)
  | _ => false

theorem statsRuns_spec {m : Machine StatsSys StatsEvent Fault} [∀ s e, Decidable (m.Enabled s e)]
    {d : Bytes} {es : List StatsEvent} {p : Vol → StatsSys → Bool} (h : statsRuns m d es p = true) :
    ∃ v t, loadVolHtable byteArgs.conf (fun _ => some d) = .ok (.ok v) ∧
      m.Run (StatsSys.mounted v) es t ∧ p v t = true := by
  unfold statsRuns at h
  split at h
  · rename_i v hv
    obtain ⟨t, hrun, hp⟩ := Machine.Run.of_exec_any h
    exact ⟨v, t, hv, hrun, hp⟩
  · cases h

/-- A file is opened, removed from the volume, missed and put back. -/
def removedAndBack : List StatsEvent :=
  (.openh (oneDigest 8) none, 1) :: (.close (0, 0), 1) ::
    (wholeRemount (oneDigest 0) ++ (.openh (oneDigest 8) none, 5) :: wholeRemount (oneDigest 8))

/-- Its hit and its miss are with it. -/
theorem no_access_lost_back : ∃ v t,
    loadVolHtable byteArgs.conf (fun _ => some (oneDigest 8)) = .ok (.ok v) ∧
    roomyStats.Run (StatsSys.mounted v) removedAndBack t ∧
    NoAccessLost byteArgs.conf (StatsSys.mounted v) removedAndBack ∧
    (t.stats.hstats (0, 0)).counts = (1, 1) ∧ t.log.length = 2 := by
  have hruns : statsRuns (roomyStats.restrict Careful) (oneDigest 8) removedAndBack (fun v t =>
      decide (v.Distinct ∧ (t.stats.hstats (0, 0)).counts = (1, 1) ∧ t.log.length = 2)) = true := by
    decide +kernel
  obtain ⟨v, t, hload, hrun, hp⟩ := statsRuns_spec hruns
  obtain ⟨hdist, hcounts, hlen⟩ := of_decide_eq_true hp
  have hroomy : roomyStats.Run (StatsSys.mounted v) removedAndBack t :=
    hrun.mono fun _ _ _ hs => (Machine.restrict_step.1 hs).1
  exact ⟨v, t, hload, hroomy, (no_access_lost (by decide) hload hroomy).2 ⟨hdist, hrun⟩, hcounts, hlen⟩

/-- A digest is missed, and then it replaces the digest of the file. -/
def missedAndBrought : List StatsEvent := (.openh (oneDigest 9) none, 1) :: wholeRemount (oneDigest 9)

/-- The entry starts from zero, and the miss stays in the miss table. -/
theorem no_access_lost_replaced : ∃ v t w,
    loadVolHtable byteArgs.conf (fun _ => some (oneDigest 8)) = .ok (.ok v) ∧ v.Distinct ∧
    roomyStats.Run (StatsSys.mounted v) missedAndBrought t ∧ t.sys.vol = some w ∧
    htableLookup w.bt (oneDigest 9) = some (0, 0) ∧ (t.stats.hstats (0, 0)).counts = (0, 0) ∧
    (t.stats.mstats.find (oneDigest 9)).map ElStats.counts = some (0, 1) ∧
    ¬ NoAccessLost byteArgs.conf (StatsSys.mounted v) missedAndBrought := by
  have hruns : statsRuns roomyStats (oneDigest 8) missedAndBrought (fun v t => t.sys.vol.any fun w =>
      decide (v.Distinct ∧ htableLookup w.bt (oneDigest 9) = some (0, 0) ∧
        (t.stats.hstats (0, 0)).counts = (0, 0) ∧
        (t.stats.mstats.find (oneDigest 9)).map ElStats.counts = some (0, 1) ∧
        digestOf byteArgs.conf.hlen (tableEntry byteArgs.conf w.htableChunkCache 0) =
          some (Digest.of byteArgs.conf.hlen (oneDigest 9)) ∧
        t.stats.mstats.find (Digest.of byteArgs.conf.hlen (oneDigest 9)).bytes ≠ none)) = true := by
    decide +kernel
  obtain ⟨v, t, hload, hrun, hp⟩ := statsRuns_spec hruns
  obtain ⟨w, hw, hp⟩ := (Option.any_eq_true _ _).1 hp
  obtain ⟨hdist, hlook, hzero, hone, hholder, hstore⟩ := of_decide_eq_true hp
  refine ⟨v, t, w, hload, hdist, hrun, hw, hlook, hzero, hone, fun hno => ?_⟩
  obtain ⟨w', hw', hkept⟩ := hno.kept _ [] t (List.append_nil _).symm hrun
  obtain rfl : w = w' := Option.some.inj (hw.symm.trans hw')
  have hheld := (@books_holder byteArgs.conf t.stats w 0 (by decide)).trans hholder
  have hnone := hkept.apart 0 _ hheld
  exact hstore (Option.map_eq_none_iff.1 hnone)

end Minipython.Shfs
