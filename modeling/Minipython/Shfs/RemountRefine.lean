/-
# Minipython.Shfs.RemountRefine — a remount builds what a mount would (shfs.c)

`reload_vol_htable` patches the table in place, entry by entry, while files are opened and closed.
`Reloaded v tab k f` is its loop invariant: the first `f` slots are fed from the new entries `tab`, the
first `k` cached entries are overwritten, the element list is what is left of the old slots followed by
the new ones in order, and the default entry is the last flagged one of the first `k`, or an old one
that is still to come. At the end nothing of the old table is left, which is what the loader builds.

Files are opened and closed between any two steps of the remount, and it waits for the entries that are
open. Waiting changes when an entry is overwritten, and not with what. The number of entries is a multiple
of those of a chunk here; otherwise the walk leaves the table (`RemountRange`). It returns 0 if every chunk
of the table was read: `disk` gives the content that it has read, and the mount to compare with reads the
same.

`SameTable` is that of everything the file system keeps: the digests in the slots, the order of the element
list, the bytes of the cached entries, and the default entry. Counters and semaphores belong to the open
files, so they are not compared.
-/
import Minipython.Shfs.RemountRange

namespace Minipython.Shfs

open Minipython.Lib Minipython.Tools

/-- The tables of two volumes agree in all that lookups and opens read. -/
structure SameTable (v w : Vol) : Prop where
  conf : v.conf = w.conf
  hash : ∀ el, v.bt.InRange el → SameHash v.conf.hlen (v.bt.h el) (w.bt.h el)
  bytes : ∀ i, i < v.conf.htableNbEntries → SameHentry (v.hentry (v.slot i)) (w.hentry (w.slot i))
  list : foreachHtableEl v.bt = foreachHtableEl w.bt
  dflt : v.defBentry = w.defBentry
  update : ∀ el, (v.bentry el).update = false ∧ (w.bentry el).update = false

/-- The entries of a table on disk. -/
def diskEntry (conf : VolConf) (disk : Nat → Bytes) (i : Nat) : Hentry :=
  tableEntry conf (fun c => disk (conf.htableChunk c)) i

/-- Behind feeding `f` and overwriting `k` entries. -/
structure Reloaded (v : Vol) (tab : Nat → Hentry) (k f : Nat) : Prop where
  hash : ∀ i, i < f → SameHash v.conf.hlen (v.bt.h (v.slot i)) (tab i)
  bytes : ∀ i, i < k → SameHentry (tableEntry v.conf v.htableChunkCache i) (tab i)
  list : ∃ old, v.bt.Listed (old ++ v.usedSlots tab f) ∧ ∀ el ∈ old, ∀ i, i < f → v.slot i ≠ el
  dflt : match Vol.lastDefault tab k with
    | some j => v.defBentry = some (v.slot j)
    | none => ∀ i, i < k → v.defBentry ≠ some (v.slot i)

namespace Reloaded

variable {v w : Vol} {tab : Nat → Hentry} {k : Nat}

/-- Before the first entry. -/
theorem start {l : List HtableEl} (hl : v.bt.Listed l) : Reloaded v tab 0 0 where
  hash := fun i hi => absurd hi (Nat.not_lt_zero i)
  bytes := fun i hi => absurd hi (Nat.not_lt_zero i)
  list := ⟨l, by simpa [Vol.usedSlots] using hl, fun _ _ i hi => absurd hi (Nat.not_lt_zero i)⟩
  dflt := fun i hi => absurd hi (Nat.not_lt_zero i)

/-- The invariant is not about the counters of the bucket entries. -/
theorem of_bentry {f : Nat} (h : Reloaded v tab k f) (b : HtableEl → Bentry) :
    Reloaded { v with bentry := b } tab k f := ⟨h.hash, h.bytes, h.list, h.dflt⟩

/-- Feeding the next entry. -/
theorem feed (h : Reloaded v tab k k) {new : Hentry} (hw : Fed v w k new)
    (hnew : tab k = new) : Reloaded w tab k (k + 1) where
  hash := fun i hi => by
    rw [hw.slot, hw.hash, hw.conf]
    by_cases hik : i = k
    · subst hik
      rw [Function.update_self, hnew]
      exact hashCopy_same _ _ _
    · have hne : v.slot i ≠ v.slot k := fun he => hik (Htable.slot_injective he)
      rw [Function.update_of_ne hne]
      exact h.hash i (by omega)
  bytes := fun i hi => by
    rw [hw.conf, hw.chunkCache]
    exact h.bytes i hi
  list := by
    obtain ⟨old, hl, hold⟩ := h.list
    have hused : (v.usedSlots tab k).filter (· ≠ v.slot k) = v.usedSlots tab k :=
      Vol.Loaded.filter_slot
    have hslots : w.usedSlots tab (k + 1) =
        v.usedSlots tab k ++ if hashIsZero new v.conf.hlen then [] else [v.slot k] := by
      rw [← hnew, ← Vol.usedSlots_succ]
      unfold Vol.usedSlots
      rw [hw.conf, show w.slot = v.slot from funext hw.slot]
    refine ⟨old.filter (· ≠ v.slot k), ?_, fun el hel i hi => ?_⟩
    · have := hw.list _ hl
      rw [List.filter_append, hused, List.append_assoc, ← hslots] at this
      exact this
    · rw [hw.slot]
      obtain ⟨hel, hne⟩ := List.mem_filter.1 hel
      by_cases hik : i = k
      · subst hik
        exact fun he => by simp [he] at hne
      · exact hold el hel i (by omega)
  dflt := by
    have hs : w.slot = v.slot := funext hw.slot
    rw [hs, hw.dflt]
    exact h.dflt

/-- Overwriting the cached entry that was fed. -/
theorem update {c e : Nat} {nchk : Bytes}
    (h : Reloaded v tab (c * v.conf.htableNbEntriesPerChunk + e)
      (c * v.conf.htableNbEntriesPerChunk + e + 1))
    (he : e < v.conf.htableNbEntriesPerChunk)
    (hnew : tab (c * v.conf.htableNbEntriesPerChunk + e) = chunkEntry v.conf nchk e) :
    Reloaded (reloadUpdate v c e nchk (v.slot (c * v.conf.htableNbEntriesPerChunk + e))) tab
      (c * v.conf.htableNbEntriesPerChunk + e + 1) (c * v.conf.htableNbEntriesPerChunk + e + 1) := by
  set k := c * v.conf.htableNbEntriesPerChunk + e with hk
  have hslot : (reloadUpdate v c e nchk (v.slot k)).slot = v.slot := funext fun i => by simp
  constructor
  case hash => simpa using h.hash
  case bytes =>
      intro i hi
      rw [reloadUpdate_conf]
      by_cases hik : i = k
      · rw [hik, hnew, hk]
        exact reloadUpdate_entry he
      · exact (reloadUpdate_frame he hik).trans (h.bytes i (by omega))
  case list =>
      obtain ⟨old, hl, hold⟩ := h.list
      refine ⟨old, ?_, by rwa [hslot]⟩
      unfold Vol.usedSlots at *
      simpa [hslot] using hl
  case dflt =>
      rw [Vol.lastDefault_succ, reloadUpdate_defBentry, hslot, hnew]
      by_cases hd : (chunkEntry v.conf nchk e).isDefault = true
      · simp [hd]
      · simp only [hd, Bool.false_eq_true, if_false]
        have hdflt := h.dflt
        cases hlast : Vol.lastDefault tab k with
        | some j =>
            -- the default entry is an earlier one, so this update leaves it
            rw [hlast] at hdflt
            have hj : j < k := by
              have := List.mem_of_getLast? hlast
              simpa using (List.mem_filter.1 this).1
            have hne : v.slot j ≠ v.slot k := fun heq => by
              have := Htable.slot_injective heq
              omega
            simp [hdflt, hne]
        | none =>
            rw [hlast] at hdflt
            intro i hi
            by_cases hik : i = k
            · subst hik
              split
              · simp
              · assumption
            · split
              · simp
              · exact hdflt i (by omega)

end Reloaded

/-! ## Along a remount -/

/-- How far the table is rebuilt at a place of the remount. -/
def ReloadInv (v : Vol) (disk : Nat → Bytes) : Locker → Prop
  | .idle => False
  | .read c => Reloaded v (diskEntry v.conf disk) (c * v.conf.htableNbEntriesPerChunk)
      (c * v.conf.htableNbEntriesPerChunk)
  | .entry c e nchk => nchk = disk (v.conf.htableChunk c) ∧
      Reloaded v (diskEntry v.conf disk) (c * v.conf.htableNbEntriesPerChunk + e)
        (c * v.conf.htableNbEntriesPerChunk + e)
  | .down c e nchk _ | .locked c e nchk _ => nchk = disk (v.conf.htableChunk c) ∧
      Reloaded v (diskEntry v.conf disk) (c * v.conf.htableNbEntriesPerChunk + e)
        (c * v.conf.htableNbEntriesPerChunk + e + 1)
  | .out none => Reloaded v (diskEntry v.conf disk)
      (v.conf.htableLen * v.conf.htableNbEntriesPerChunk)
      (v.conf.htableLen * v.conf.htableNbEntriesPerChunk)
  | _ => True

theorem reloadInv_atChunk {v : Vol} {disk : Nat → Bytes} {c : Nat} (hc : c ≤ v.conf.htableLen)
    (h : Reloaded v (diskEntry v.conf disk) (c * v.conf.htableNbEntriesPerChunk)
      (c * v.conf.htableNbEntriesPerChunk)) : ReloadInv v disk (atChunk v.conf c) := by
  unfold atChunk
  by_cases hlt : c < v.conf.htableLen
  · rw [if_pos hlt]
    exact h
  · rw [if_neg hlt]
    obtain rfl : c = v.conf.htableLen := by omega
    exact h

theorem reloadInv_atEntry {v : Vol} {disk : Nat → Bytes} {c e : Nat} (hc : c < v.conf.htableLen)
    (he : e ≤ v.conf.htableNbEntriesPerChunk)
    (h : Reloaded v (diskEntry v.conf disk) (c * v.conf.htableNbEntriesPerChunk + e)
      (c * v.conf.htableNbEntriesPerChunk + e)) :
    ReloadInv v disk (atEntry v.conf c e (disk (v.conf.htableChunk c))) := by
  unfold atEntry
  by_cases hlt : e < v.conf.htableNbEntriesPerChunk
  · rw [if_pos hlt]
    exact ⟨rfl, h⟩
  · rw [if_neg hlt]
    have he' : c * v.conf.htableNbEntriesPerChunk + e =
        (c + 1) * v.conf.htableNbEntriesPerChunk := by
      rw [Nat.succ_mul]
      omega
    exact reloadInv_atChunk hc (he' ▸ h)

theorem reloadInv_step {counted : Prop} {disk : Nat → Bytes} {s t : Sys} {v : Vol} {e : SysEvent}
    (h : MountedInv counted s v) (hv : s.vol = some v) (hr : s.locker.remounts = true)
    (hi : ReloadInv v disk s.locker) (hin : WithinRemount v.conf disk s e)
    (hs : sys.Step s e t) : ∃ w, t.vol = some w ∧ w.conf = v.conf ∧ ReloadInv w disk t.locker := by
  obtain ⟨w, hw, hcase⟩ := mountedSys_cases h hv hr (Machine.restrict_step.2 ⟨hs, hin.1⟩)
  obtain ⟨upd, held, ht, hlock⟩ := h.table
  refine ⟨w, hw, ?_⟩
  cases hcase with
  | call hc hto hw =>
      obtain ⟨b, rfl⟩ := hw
      rw [hto]
      refine ⟨rfl, ?_⟩
      cases hl : s.locker with
      | out r =>
          rw [hl] at hi
          cases r with
          | none => exact hi.of_bentry b
          | some e => trivial
      | idle => rwa [hl] at hi
      | read c => rw [hl] at hi; exact hi.of_bentry b
      | entry c e n => rw [hl] at hi; exact ⟨hi.1, hi.2.of_bentry b⟩
      | down c e n el => rw [hl] at hi; exact ⟨hi.1, hi.2.of_bentry b⟩
      | locked c e n el => rw [hl] at hi; exact ⟨hi.1, hi.2.of_bentry b⟩
      | mountLabel i => trivial
      | mountLoad i => trivial
      | mountClose r => trivial
      | umountClose => trivial
      | umountAt c => trivial
      | umountDown el => trivial
  | remount hfrom hto hw =>
      rw [hfrom] at hi
      exact hi.elim
  | readError hfrom hto hw =>
      subst hw
      rw [hto]
      exact ⟨rfl, trivial⟩
  | readChunk hfrom hto hw =>
      subst hw
      rw [hfrom] at hi hlock
      rw [hto, hin.2.1 _ _ hfrom rfl]
      exact ⟨rfl, reloadInv_atEntry hlock.2.2.chunk (Nat.zero_le _) hi⟩
  | feed hfrom hto hw =>
      rw [hfrom] at hi hlock
      obtain ⟨rfl, hi⟩ := hi
      rw [hto]
      have hfed := hi.feed hw (tableEntry_chunk _ _ hlock.2.2.entry)
      exact ⟨hw.conf, by rw [hw.conf], by rw [hw.conf]; exact hfed⟩
  | take hfrom hto hw =>
      obtain ⟨b, rfl⟩ := hw
      rw [hfrom] at hi
      rw [hto]
      exact ⟨rfl, hi.1, hi.2.of_bentry b⟩
  | @update c e nchk el hfrom hto hw =>
      rw [hfrom] at hi hlock
      obtain ⟨rfl, hi⟩ := hi
      obtain ⟨-, -, hat, -, rfl⟩ := hlock
      subst hw
      rw [hto]
      have hup := hi.update hat.entry (tableEntry_chunk _ _ hat.entry)
      refine ⟨by simp, ?_⟩
      have := @reloadInv_atEntry (reloadUpdate v c e (disk (v.conf.htableChunk c))
        (v.slot (c * v.conf.htableNbEntriesPerChunk + e))) disk c (e + 1)
      simp only [reloadUpdate_conf] at this
      exact this hat.chunk hat.entry hup
  | unlock hfrom hto hw => exact absurd rfl (hin.2.2 _ hfrom)

/-! ## The end of a remount -/

/-- A table rebuilt to its end is the one the loader builds. -/
theorem sameTable_of_reloaded {counted : Prop} {v w : Vol} {tab : Nat → Hentry} {hs : List HtableEl}
    (ht : TableInv counted v hs noMark noMark)
    (h : Reloaded v tab v.conf.htableNbEntries v.conf.htableNbEntries)
    (hconf : w.conf = v.conf) (hw : w.Loaded v.conf.htableNbEntries tab)
    (hbytes : ∀ i, i < v.conf.htableNbEntries →
      SameHentry (tableEntry v.conf w.htableChunkCache i) (tab i)) : SameTable v w := by
  have htw : TableInv counted w [] noMark noMark := .of_loaded (hconf ▸ hw)
  have hgeom : v.bt.SameGeom w.bt := ⟨by rw [hw.sized.1, ht.sized.1, hconf],
    by rw [hw.sized.2.1, ht.sized.2.1, hconf], by rw [hw.sized.2.2, ht.sized.2.2, hconf]⟩
  have hslot : w.slot = v.slot := funext fun i => hgeom.slot i
  obtain ⟨old, hl, hold⟩ := h.list
  -- every slot in use is that of an entry, so nothing of the old list is left
  have hentry : ∀ el, v.InUse el → ∃ i, i < v.conf.htableNbEntries ∧ v.slot i = el :=
    fun el hu => ((ht.el el).stray hu).resolve_right id
  have hnil : old = [] := List.eq_nil_iff_forall_not_mem.2 fun el hel => by
    obtain ⟨i, hi, hs⟩ := hentry el ((hl.mem el).1 (List.mem_append_left _ hel))
    exact hold el hel i hi hs
  rw [hnil, List.nil_append] at hl
  constructor
  case conf => exact hconf.symm
  case hash =>
      intro el hel
      by_cases he : ∃ i, i < v.conf.htableNbEntries ∧ v.slot i = el
      · obtain ⟨i, hi, rfl⟩ := he
        have h2 := hw.hash i hi
        rw [hslot, hconf] at h2
        exact (h.hash i hi).trans h2.symm
      · -- a slot without an entry holds the zero digest in both tables
        have h1 : hashIsZero (v.bt.h el) v.conf.hlen = true := by
          by_contra hz
          refine he (hentry el ⟨hel, ?_⟩)
          rw [Htable.isFree, ht.sized.2.2]
          simpa using hz
        have h2 : hashIsZero (w.bt.h el) v.conf.hlen = true := by
          by_contra hz
          have hu : w.InUse el := ⟨(hgeom.inRange el).2 hel, by
            rw [Htable.isFree, hw.sized.2.2, hconf]
            simpa using hz⟩
          obtain ⟨i, hi, hs⟩ := ((htw.el el).stray hu).resolve_right id
          exact he ⟨i, by rwa [hconf] at hi, by rwa [hslot] at hs⟩
        exact fun i hi => by rw [hashIsZero_iff.1 h1 i hi, hashIsZero_iff.1 h2 i hi]
  case bytes =>
      intro i hi
      rw [ht.hentry_eq hi, htw.hentry_eq (by rwa [hconf]), hconf]
      exact (h.bytes i hi).trans (hbytes i hi).symm
  case list =>
      rw [foreachHtableEl_eq hl, foreachHtableEl_eq hw.listed]
      unfold Vol.usedSlots
      rw [hslot, hconf]
  case dflt =>
      rw [hw.dflt, hslot]
      have hdflt := h.dflt
      cases hlast : Vol.lastDefault tab v.conf.htableNbEntries with
      | some j => rwa [hlast] at hdflt
      | none =>
          rw [hlast] at hdflt
          cases hd : v.defBentry with
          | none => rfl
          | some el =>
              obtain ⟨i, hi, rfl⟩ := ht.dflt el hd
              exact absurd hd (hdflt i hi)
  case update =>
      intro el
      constructor
      · exact Bool.eq_false_iff.2 fun hu => (ht.el el).update.1 hu
      · exact Bool.eq_false_iff.2 fun hu => (htw.el el).update.1 hu

/-- A remount that returns 0 leaves the table a mount of the new content would build, from any state of a
mounted volume and whatever files are opened and closed on the way. The number of entries is a multiple of
those of a chunk, so that the walk ends with the table. Same are the digests in all slots, the bytes of the
entries, the element list in its order, the default entry, and that no entry is left closed for opens. -/
theorem remount_matches_mount {conf : VolConf} {rd : Nat → Option Bytes} {v₀ : Vol}
    {es₀ es : List SysEvent} {s₀ s₁ t : Sys} {disk : Nat → Bytes}
    (hload : loadVolHtable conf rd = .ok (.ok v₀)) (hrun₀ : mountedSys.Run (Sys.mounted v₀) es₀ s₀)
    (hdvd : conf.htableNbEntriesPerChunk ∣ conf.htableNbEntries)
    (hstart : sys.Step s₀ .remount s₁)
    (hrun : (remountSys conf disk).Run s₁ es t) (hret : t.locker = .out none) :
    ∃ v w, t.vol = some v ∧ loadVolHtable conf (fun c => some (disk c)) = .ok (.ok w) ∧
      SameTable v w := by
  have hon₀ := mountedOn_run (mountedOn_load hload) hrun₀
  -- the remount starts with nothing rebuilt
  have hs₁ : MountedOn False conf s₁ ∧ ∃ v, s₁.vol = some v ∧ ReloadInv v disk s₁.locker := by
    refine ⟨mountedOn_step hon₀ False.elim (Machine.restrict_step.2 ⟨hstart, rfl⟩), ?_⟩
    obtain ⟨v, hv, -, hinv, -⟩ := hon₀
    obtain ⟨hidle, hnext⟩ := hstart
    obtain rfl : remountShfs s₀ = s₁ := by simpa [sys, sysNext] using hnext
    obtain ⟨upd, held, ht, -⟩ := hinv.table
    obtain ⟨l, hl⟩ := ht.listed
    refine ⟨v, by simp [remountShfs, hinv.flag, hv], ?_⟩
    have hlock : (remountShfs s₀).locker = atChunk v.conf 0 := by simp [remountShfs, hinv.flag, hv]
    rw [hlock]
    exact reloadInv_atChunk (Nat.zero_le _) (by simpa using Reloaded.start hl)
  have hend : MountedOn False conf t ∧ ∃ v, t.vol = some v ∧ ReloadInv v disk t.locker := by
    refine hrun.invariant (I := fun s => MountedOn False conf s ∧ ∃ v, s.vol = some v ∧
      ReloadInv v disk s.locker) (fun s e u hI hs => ?_) hs₁
    obtain ⟨hstep, hin⟩ := Machine.restrict_step.1 hs
    obtain ⟨hon, v, hv, hi⟩ := hI
    refine ⟨mountedOn_step hon False.elim (Machine.restrict_step.2 ⟨hstep, hin.1⟩), ?_⟩
    obtain ⟨v', hv', rfl, hinv, hr⟩ := hon
    obtain rfl : v' = v := Option.some.inj (hv'.symm.trans hv)
    obtain ⟨w, hw, -, hi'⟩ := reloadInv_step hinv hv hr hi hin hstep
    exact ⟨w, hw, hi'⟩
  obtain ⟨⟨v, hv, rfl, hinv, -⟩, v', hv', hi⟩ := hend
  obtain rfl : v' = v := Option.some.inj (hv'.symm.trans hv)
  rw [hret] at hi
  obtain ⟨upd, held, ht, hlock⟩ := hinv.table
  rw [hret] at hlock
  obtain ⟨rfl, rfl⟩ := hlock
  have hlen := v'.conf.htableLen_mul hdvd
  obtain ⟨w, hok, hconf, hchk, hw⟩ :=
    loadVolHtable_spec v'.conf (fun c => some (disk c)) fun _ _ => rfl
  have htab : tableEntry v'.conf w.htableChunkCache = diskEntry v'.conf disk := by
    rw [hchk]
    rfl
  rw [htab] at hw
  refine ⟨v', w, hv, hok, sameTable_of_reloaded ht ?_ hconf hw fun i _ => ?_⟩
  · rw [← hlen]
    exact hi
  · rw [htab]
    exact SameHentry.refl _

/-- One bucket of 16 entries, which fill a chunk: its empty table is replaced by one full of the same
default entry. -/
theorem remount_matches_mount_chunk :
    ∃ v₀ es t v w, loadVolHtable chunkArgs.conf (fun _ => some Bytes.zeros) = .ok (.ok v₀) ∧
      (remountSys chunkArgs.conf fun _ _ => 8).Run (remountShfs (Sys.mounted v₀)) es t ∧
      t.vol = some v ∧ loadVolHtable chunkArgs.conf (fun _ => some fun _ => 8) = .ok (.ok w) ∧
      SameTable v w := by
  obtain ⟨v₀, hv₀⟩ := exists_load chunkArgs.conf fun _ => Bytes.zeros
  have hdvd : chunkArgs.conf.htableNbEntriesPerChunk ∣ chunkArgs.conf.htableNbEntries := by decide
  obtain ⟨es, t, hrun, hret⟩ := remount_returns (fun _ _ => 8) (mountedOn_load hv₀) rfl rfl hdvd
  obtain ⟨v, w, hv, hw, hsame⟩ :=
    remount_matches_mount hv₀ (.nil (Sys.mounted v₀)) hdvd ⟨rfl, rfl⟩ hrun hret
  exact ⟨v₀, es, t, v, w, hv₀, hrun, hv, hw, hsame⟩

end Minipython.Shfs
