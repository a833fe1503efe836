/-
# Minipython.Shfs.StatsStep — what an event does to the accounts (shfs_fio.c, shfs.c)

Outside an update, the slot of an entry holds the digest of its cached copy (`Mirrors`). So the entry that an
open finds by digest is the holder of that digest, and an open is one credit to its account or to one in the
miss table; the update of an entry is one change of holder (`Effect`).

During an update the two disagree for one slot, the one whose entry the remount waits for: the bucket table
has the new digest, the cached copy the old one. `Mirrors` leaves this slot out. Requests that come in
meanwhile find the new digest in the table, and the open fails there, since the entry is closed for opens.
-/
import Minipython.Shfs.StatsBooks

namespace Minipython.Shfs

open Minipython.Lib

/-! ## The cached entries and the bucket table -/

/-- The slot that a remount is about to update. -/
def Locker.target : Locker → Option HtableEl
  | .down _ _ _ el | .locked _ _ _ el => some el
  | _ => none

theorem target_atChunk (conf : VolConf) (c : Nat) : (atChunk conf c).target = none := by
  unfold atChunk
  split <;> rfl

theorem target_atEntry (conf : VolConf) (c e : Nat) (nchk : Bytes) :
    (atEntry conf c e nchk).target = none := by
  unfold atEntry
  split
  · rfl
  · exact target_atChunk conf _

/-- The slots hold the digests of the cached entries, except for the one that is about to be updated, which
holds the digest that the entry will have. -/
structure Mirrors (v : Vol) (l : Locker) : Prop where
  settled : ∀ i, i < v.conf.htableNbEntries → l.target ≠ some (v.slot i) →
    SameHash v.conf.hlen (v.bt.h (v.slot i)) (tableEntry v.conf v.htableChunkCache i)
  pending : ∀ c e nchk el, l = .down c e nchk el ∨ l = .locked c e nchk el →
    SameHash v.conf.hlen (v.bt.h el) (chunkEntry v.conf nchk e)

/-- Nothing is about to be updated. -/
theorem mirrors_quiet {v : Vol} {l : Locker} (hl : l.target = none)
    (h : ∀ i, i < v.conf.htableNbEntries →
      SameHash v.conf.hlen (v.bt.h (v.slot i)) (tableEntry v.conf v.htableChunkCache i)) :
    Mirrors v l where
  settled := fun i hi _ => h i hi
  pending := by
    rintro c e nchk el (rfl | rfl) <;> cases hl

theorem Mirrors.all {v : Vol} {l : Locker} (h : Mirrors v l) (hl : l.target = none) (i : Nat)
    (hi : i < v.conf.htableNbEntries) :
    SameHash v.conf.hlen (v.bt.h (v.slot i)) (tableEntry v.conf v.htableChunkCache i) :=
  h.settled i hi (by rw [hl]; exact fun he => by cases he)

theorem mirrors_step {counted : Prop} {s t : Sys} {v w : Vol} {e : SysEvent} (h : MountedInv counted s v)
    (hlen : v.conf.hlen ≤ 64) (hm : Mirrors v s.locker) (hcase : MountedStep s t v w e) :
    Mirrors w t.locker := by
  obtain ⟨upd, held, ht, hlock⟩ := h.table
  cases hcase with
  | call hc hto hw =>
      obtain ⟨b, rfl⟩ := hw
      rw [hto]
      exact ⟨hm.settled, hm.pending⟩
  | remount hfrom hto hw =>
      subst hw
      rw [hto]
      exact mirrors_quiet (target_atChunk _ _) (hm.all (by rw [hfrom]; rfl))
  | readError hfrom hto hw =>
      subst hw
      rw [hto]
      exact mirrors_quiet rfl (hm.all (by rw [hfrom]; rfl))
  | readChunk hfrom hto hw =>
      subst hw
      rw [hto]
      exact mirrors_quiet (target_atEntry _ _ _ _) (hm.all (by rw [hfrom]; rfl))
  | unlock hfrom hto hw =>
      subst hw
      rw [hto]
      exact mirrors_quiet rfl (hm.all (by rw [hfrom]; rfl))
  | @feed c e nchk hfrom hto hw =>
      have hall := hm.all (by rw [hfrom]; rfl)
      rw [hto]
      constructor
      · intro i hi hne
        rw [hw.conf] at hi
        rw [hw.slot, hw.hash, hw.conf, hw.chunkCache, Function.update_of_ne ?_]
        · exact hall i hi
        · intro heq
          exact hne (by rw [hw.slot, heq]; rfl)
      · rintro c' e' nchk' el' (heq | heq)
        · obtain ⟨rfl, rfl, rfl, rfl⟩ := Locker.down.inj heq
          rw [hw.hash, hw.conf, Function.update_self]
          exact hashCopy_same _ _ _
        · cases heq
  | @take c e nchk el hfrom hto hw =>
      obtain ⟨b, rfl⟩ := hw
      rw [hfrom] at hm
      rw [hto]
      refine ⟨hm.settled, fun c' e' nchk' el' heq => ?_⟩
      rcases heq with heq | heq
      · cases heq
      · obtain ⟨rfl, rfl, rfl, rfl⟩ := Locker.locked.inj heq
        exact hm.pending _ _ _ _ (.inl rfl)
  | @update c e nchk el hfrom hto hw =>
      subst hw
      rw [hfrom] at hm hlock
      obtain ⟨-, -, hat, -, hel⟩ := hlock
      rw [hto]
      refine mirrors_quiet (target_atEntry _ _ _ _) fun i hi => ?_
      rw [reloadUpdate_conf] at hi ⊢
      rw [reloadUpdate_bt, reloadUpdate_slot]
      by_cases hik : i = c * v.conf.htableNbEntriesPerChunk + e
      · -- the fed digest is that of the entry just written
        have hp := hm.pending _ _ _ _ (.inr rfl)
        have hentry := @reloadUpdate_entry v c e nchk el hat.entry
        rw [hik, ← hel]
        exact hp.trans (hentry.sameHash hlen).symm
      · have hne : Locker.target (.locked c e nchk el) ≠ some (v.slot i) := by
          rw [hel]
          exact fun he => hik (Htable.slot_injective (Option.some.inj he)).symm
        exact (hm.settled i hi hne).trans ((reloadUpdate_frame hat.entry hik).sameHash hlen).symm

/-! ## Opens -/

/-- What an event makes of the accounts, by the access that it is and the change of digest that it
completes. -/
inductive Effect (st : Stats) (v : Vol) (now : UInt32) (b : Books Nat (Digest v.conf.hlen) (Nat × Nat)) :
    Option Access → Option Swap → Prop where
  | quiet (hb : b = st.books v.conf v) : Effect st v now b none none
  | hit {h : Hash512} {i : Nat} (hi : (st.books v.conf v).holder i = digestOf v.conf.hlen h)
      (hb : b = (st.books v.conf v).post i ((st.hstats (v.slot i)).hit now).counts) :
      Effect st v now b (some (.hit (v.slot i) h)) none
  | missZero {h : Hash512} (hz : hashIsZero h v.conf.hlen = true) (hb : b = st.books v.conf v) :
      Effect st v now b (some (.miss h)) none
  | miss {h : Hash512} (hz : hashIsZero h v.conf.hlen = false)
      (hb : b = (st.books v.conf v).postStore (Digest.of v.conf.hlen h)
        (((st.mstats.find h).getD ElStats.zero).miss now).counts) :
      Effect st v now b (some (.miss h)) none
  | swap {x : Swap} (hd : hashCompare x.old x.new v.conf.hlen = true)
      (hi : (st.books v.conf v).holder x.entry = digestOf v.conf.hlen x.old)
      (hb : b = (st.books v.conf v).replace x.entry (digestOf v.conf.hlen x.new)) :
      Effect st v now b none (some x)

section Opens

variable {counted : Prop} {s : Sys} {v : Vol} {st : Stats} {now : UInt32} {el : HtableEl} {d : Hash512}

/-- An open that is not turned away is one of an entry whose cached copy is up to date. -/
theorem MountedInv.openable (h : MountedInv counted s v) (hel : v.InUse el ∨ v.IsEntry el)
    (hu : (v.bentry el).update = false) :
    ∃ i, i < v.conf.htableNbEntries ∧ v.slot i = el ∧ s.locker.target ≠ some el := by
  obtain ⟨upd, held, ht, hlock⟩ := h.table
  have hupd : ¬ upd el := by
    rw [← (ht.el el).update, hu]
    exact Bool.false_ne_true
  obtain ⟨i, hi, hslot⟩ : v.IsEntry el := hel.elim (fun hin => ((ht.el el).stray hin).resolve_right hupd) id
  refine ⟨i, hi, hslot, fun htarget => ?_⟩
  cases hl : s.locker with
  | down c e nchk x =>
      rw [hl] at htarget hlock
      obtain rfl := Option.some.inj htarget
      rw [hlock.1] at hupd
      exact hupd rfl
  | locked c e nchk x =>
      rw [hl] at htarget hlock
      obtain rfl := Option.some.inj htarget
      rw [hlock.1] at hupd
      exact hupd rfl
  | _ => rw [hl] at htarget; cases htarget

/-- `_shfs_fio_open_bentry` credits the entry with a hit. -/
theorem openBentry_effect (h : MountedInv counted s v) (hel : v.InUse el ∨ v.IsEntry el)
    (hd : ∀ i, i < v.conf.htableNbEntries → v.slot i = el → s.locker.target ≠ some el →
      SameHash v.conf.hlen (tableEntry v.conf v.htableChunkCache i) d) :
    Effect st v now ((st.shfsFioOpenBentry v now el).books v.conf v) (accessEntry v el d) none := by
  unfold Stats.shfsFioOpenBentry accessEntry
  by_cases hu : (v.bentry el).update = true
  · rw [if_pos hu, if_pos hu]
    exact .quiet (books_congr rfl rfl rfl rfl)
  · rw [if_neg hu, if_neg hu]
    obtain ⟨i, hi, rfl, htarget⟩ := h.openable hel (by simpa using hu)
    refine .hit ?_ (books_post _)
    rw [books_holder hi]
    exact digestOf_congr (hd i hi rfl htarget)

/-- The errors and invalid requests are in no account. -/
theorem sound_openBentry {conf : VolConf} (hs : st.mstats.Sound conf) :
    (st.shfsFioOpenBentry v now el).mstats.Sound conf := by
  unfold Stats.shfsFioOpenBentry
  split <;> exact hs

/-- An open by digest credits the digest with a hit or a miss. -/
theorem openHash_effect (h : MountedInv counted s v) (hm : Mirrors v s.locker) (hs : st.mstats.Sound v.conf)
    (hroom : ∀ a, accessHash v d = some a → st.mstats.RoomFor a) :
    ∃ st', st.shfsFioOpenh v now d = .ok st' ∧ st'.mstats.Sound v.conf ∧
      Effect st v now (st'.books v.conf v) (accessHash v d) none := by
  unfold Stats.shfsFioOpenh Stats.shfsLookupBentryByHash
  unfold accessHash at hroom ⊢
  cases hf : shfsLookupBentryByHash v d with
  | some el =>
      refine ⟨_, rfl, sound_openBentry hs, openBentry_effect h (.inl (h.lookupHash hf)) ?_⟩
      rintro i hi rfl htarget
      obtain ⟨upd, held, ht, -⟩ := h.table
      have hb : 0 < v.bt.nbBkts := by
        rw [ht.sized.1]
        exact Mstats.nbBuckets_pos v.conf
      obtain ⟨-, hsame, -⟩ := htableLookup_some hb hf
      rw [ht.sized.2.2] at hsame
      exact (hm.settled i hi htarget).symm.trans hsame
  | none =>
      rw [hf] at hroom
      obtain ⟨x, ms, hfrom, hx⟩ := hs.fromMstats d
      simp only [hfrom]
      cases x with
      | none =>
          obtain ⟨hs', hfind, hz⟩ := hx
          refine ⟨_, rfl, hs', .missZero (hz.resolve_right fun hn => hn (hroom _ rfl)) ?_⟩
          exact books_congr rfl rfl rfl (funext hfind)
      | some p =>
          obtain ⟨hz, hp, hset⟩ := hx
          have hval := hset.elStats hp
          have hwrite := hset.trans (hset.1.write hp ((ms.elStats p).miss now))
          rw [hval] at hwrite
          refine ⟨_, rfl, hwrite.1, .miss hz ?_⟩
          rw [hval]
          exact books_postStore hwrite

/-- An open by path. -/
theorem openPath_effect (h : MountedInv counted s v) (hm : Mirrors v s.locker) (hs : st.mstats.Sound v.conf)
    {path : List UInt8} (hroom : ∀ a, accessPath v path = some a → st.mstats.RoomFor a) :
    ∃ st', st.shfsFioOpen v now path = .ok st' ∧ st'.mstats.Sound v.conf ∧
      Effect st v now (st'.books v.conf v) (accessPath v path) none := by
  have hopen : ∀ el, shfsFioLookup v path = some el →
      Effect st v now ((st.shfsFioOpenBentry v now el).books v.conf v)
        (accessEntry v el (v.hentry el)) none := by
    intro el hf
    refine openBentry_effect h (h.lookup hf) ?_
    rintro i hi rfl -
    obtain ⟨upd, held, ht, -⟩ := h.table
    rw [ht.hentry_eq hi]
    exact SameHash.refl _
  have hinvalid : Effect st v now (st.invalid.books v.conf v) none none := .quiet rfl
  unfold Stats.shfsFioOpen
  unfold accessPath at hroom ⊢
  by_cases hdef : isDefaultPath path = true
  · have hlook : shfsFioLookup v path = v.defBentry := if_pos hdef
    rw [if_pos hdef, if_neg (by simp [hdef]), hlook]
    cases hb : v.defBentry with
    | none => exact ⟨_, rfl, hs, hinvalid⟩
    | some el => exact ⟨_, rfl, sound_openBentry hs, hopen el (hlook.trans hb)⟩
  rw [if_neg hdef]
  by_cases hpre : path.head? = some shfsHashIndicatorPrefix
  · have hcond : (!isDefaultPath path) = true ∧ path.head? = some shfsHashIndicatorPrefix :=
      ⟨by simpa using hdef, hpre⟩
    rw [if_pos hpre]
    rw [if_pos hcond] at hroom ⊢
    cases hp : hashParse path.tail v.conf.hlen with
    | none => exact ⟨_, rfl, hs, hinvalid⟩
    | some d =>
        rw [hp] at hroom
        exact openHash_effect h hm hs hroom
  · have hlook : shfsFioLookup v path = shfsLookupBentryByName v path := by
      unfold shfsFioLookup
      rw [if_neg hdef, if_neg hpre]
    rw [if_neg hpre, if_neg (fun hc => hpre hc.2), hlook]
    unfold Stats.shfsLookupBentryByName
    cases hn : shfsLookupBentryByName v path with
    | none => exact ⟨_, rfl, hs, hinvalid⟩
    | some el => exact ⟨_, rfl, sound_openBentry hs, hopen el (hlook.trans hn)⟩

end Opens

/-! ## Updates -/

section Updates

variable {v : Vol} {st : Stats} {c e : Nat} {nchk : Bytes} {el : HtableEl}

/-- An update gives the entry the digest that was read, and leaves the other entries alone. -/
theorem reloadUpdate_holder {st' : Stats} (hlen : v.conf.hlen ≤ 64)
    (he : e < v.conf.htableNbEntriesPerChunk)
    (hi : c * v.conf.htableNbEntriesPerChunk + e < v.conf.htableNbEntries) :
    (st'.books v.conf (reloadUpdate v c e nchk el)).holder =
      Function.update (st.books v.conf v).holder (c * v.conf.htableNbEntriesPerChunk + e)
        (digestOf v.conf.hlen (chunkEntry v.conf nchk e)) := by
  funext j
  by_cases hj : j = c * v.conf.htableNbEntriesPerChunk + e
  · subst hj
    rw [Function.update_self, books_holder hi]
    exact digestOf_congr ((reloadUpdate_entry he).sameHash hlen)
  · rw [Function.update_of_ne hj]
    show (if _ then _ else _) = if _ then _ else _
    rw [digestOf_congr ((reloadUpdate_frame he hj).sameHash hlen)]

/-- The books behind an update, from their parts. -/
theorem reloadUpdate_books {st' : Stats} {b : Books Nat (Digest v.conf.hlen) (Nat × Nat)} {y : ElStats}
    (hlen : v.conf.hlen ≤ 64) (he : e < v.conf.htableNbEntriesPerChunk)
    (hi : c * v.conf.htableNbEntriesPerChunk + e < v.conf.htableNbEntries)
    (hel : el = v.slot (c * v.conf.htableNbEntriesPerChunk + e))
    (hholder : b.holder = Function.update (st.books v.conf v).holder
      (c * v.conf.htableNbEntriesPerChunk + e) (digestOf v.conf.hlen (chunkEntry v.conf nchk e)))
    (hstats : st'.hstats = Function.update st.hstats el y)
    (haccount : b.account = Function.update (st.books v.conf v).account
      (c * v.conf.htableNbEntriesPerChunk + e) y.counts)
    (hstore : (fun k : Digest v.conf.hlen => (st'.mstats.find k.bytes).map ElStats.counts) = b.store) :
    st'.books v.conf (reloadUpdate v c e nchk el) = b := by
  have h1 := @reloadUpdate_holder v st c e nchk el st' hlen he hi
  have h2 : (st'.books v.conf (reloadUpdate v c e nchk el)).account = b.account := by
    have hpost := congrArg Books.account
      (@books_post v.conf st v (c * v.conf.htableNbEntriesPerChunk + e) y)
    rw [haccount]
    refine Eq.trans ?_ hpost
    funext j
    show (st'.hstats ((reloadUpdate v c e nchk el).slot j)).counts = _
    rw [reloadUpdate_slot, hstats, hel]
    rfl
  obtain ⟨bh, ba, bs⟩ := b
  rw [← hholder] at h1
  exact congr (congr (congrArg Books.mk h1) h2) hstore

/-- The update of an entry is a change of holder, if there is room for the account of the old one. -/
theorem update_effect {counted : Prop} {s : Sys} {now : UInt32} (h : MountedInv counted s v) (hv : s.vol = some v)
    (hlen : v.conf.hlen ≤ 64) (hl : s.locker = .locked c e nchk el) (hs : st.mstats.Sound v.conf)
    (hroom : ∀ x, s.swap .locker = some x → st.mstats.Room x.old) :
    ∃ st', st.reloadUpdate v c e nchk el = .ok st' ∧ st'.mstats.Sound v.conf ∧
      Effect st v now (st'.books v.conf (reloadUpdate v c e nchk el)) none (s.swap .locker) := by
  obtain ⟨upd, held, ht, hlock⟩ := h.table
  rw [hl] at hlock
  obtain ⟨-, rfl, hat, -, hel⟩ := hlock
  have hi : c * v.conf.htableNbEntriesPerChunk + e < v.conf.htableNbEntries := by
    obtain ⟨j, hj, hslot⟩ := ((ht.el el).held rfl).2
    rw [hel] at hslot
    rwa [Htable.slot_injective hslot] at hj
  have hswap : s.swap .locker =
      if hashCompare (chunkEntry v.conf (v.htableChunkCache c) e) (chunkEntry v.conf nchk e) v.conf.hlen then
        some ⟨c * v.conf.htableNbEntriesPerChunk + e, chunkEntry v.conf (v.htableChunkCache c) e,
          chunkEntry v.conf nchk e⟩
      else none := by
    unfold Sys.swap
    rw [hv, hl]
  have hold : (st.books v.conf v).holder (c * v.conf.htableNbEntriesPerChunk + e) =
      digestOf v.conf.hlen (chunkEntry v.conf (v.htableChunkCache c) e) := by
    rw [books_holder hi, tableEntry_chunk _ _ hat.entry]
  unfold Stats.reloadUpdate
  rw [hswap] at hroom ⊢
  generalize hold' : chunkEntry v.conf (v.htableChunkCache c) e = old at *
  generalize hnew' : chunkEntry v.conf nchk e = new at *
  by_cases hd : hashCompare old new v.conf.hlen = true
  · have hne := digestOf_ne hd
    have hroom := hroom _ (if_pos hd)
    simp only [if_pos hd]
    by_cases hz : hashIsZero old v.conf.hlen = true
    · -- the entry had no digest: the statistics of the new one are loaded
      have hzn : hashIsZero new v.conf.hlen = false := by
        by_contra hzn
        rw [digestOf_zero hz, digestOf_zero (by simpa using hzn)] at hne
        exact hne rfl
      obtain ⟨st', hok, hst, hset⟩ := loadFromMstats_spec hs el hzn
      refine ⟨st', by rw [hz]; exact hok, hset.1, .swap hd hold ?_⟩
      rw [digestOf_zero hz] at hold
      rw [digestOf_nonzero hzn, Books.replace_free hold]
      refine reloadUpdate_books hlen hat.entry hi hel ?_ hst ?_ (books_sets hset)
      · rw [hnew', digestOf_nonzero hzn]
      · rw [books_store hs, getD_counts]
    · -- the statistics of the old digest go to the miss table
      have hz : hashIsZero old v.conf.hlen = false := by simpa using hz
      obtain ⟨st', hok, hst, hset⟩ := moveToMstats_spec hs el hz hroom
      refine ⟨st', by rw [hz]; exact hok, hset.1, .swap hd hold ?_⟩
      rw [digestOf_nonzero hz] at hold
      rw [Books.replace_held hold]
      refine reloadUpdate_books hlen hat.entry hi hel ?_ hst rfl ?_
      · rw [hnew']
      · rw [books_sets hset, hel]
        rfl
  · rw [if_neg hd, if_neg hd]
    refine ⟨st, rfl, hs, .quiet ?_⟩
    have hsame : digestOf v.conf.hlen new =
        (st.books v.conf v).holder (c * v.conf.htableNbEntriesPerChunk + e) := by
      rw [hold]
      exact digestOf_congr (hashCompare_eq_false.1 (by simpa using hd)).symm
    refine @reloadUpdate_books v st c e nchk el st _ (st.hstats el) hlen hat.entry hi hel ?_ ?_ ?_ rfl
    · rw [hnew', hsame, Function.update_eq_self]
    · rw [Function.update_eq_self]
    · rw [hel]
      exact (Function.update_eq_self _ _).symm

end Updates

end Minipython.Shfs
