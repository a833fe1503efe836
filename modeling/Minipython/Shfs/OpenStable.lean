/-
# Minipython.Shfs.OpenStable — what an open file can rely on (shfs_fio.c, shfs.c)

The lock on an entry is spread over a counter, a semaphore and the update flag. `_shfs_fio_open_bentry`
takes the semaphore with a `trydown` whose result it ignores, when the counter is zero; the last close gives
it back. `reload_vol_htable` sets the flag, takes the semaphore with a `down` that waits, overwrites the
entry, and gives both back. `shfs_fio_openf` counts up without a look at either.

On a mounted volume, under any interleaving of opens, closes and remounts, the three agree as long as no
counter wraps: the semaphore is down exactly while the entry is open or a remount is between its `down` and
its `up`, so the first open always gets it, and the bytes of an open entry do not change. `open_entry_stable`
and `first_open_locks` say this of one step, `metadata_stable` of every run.

The counter has 32 bits. `refcount_wraps` is the run that opens one entry `2 ^ 32` times: its counter is zero
again and its semaphore still down.
-/
import Minipython.Shfs.SystemInv
import Minipython.Tools.MkfsArgs

namespace Minipython.Shfs

open Minipython.Lib Minipython.Tools

/-- A step keeps the bytes of every open entry. -/
theorem open_entry_stable {s t : Sys} {v w : Vol} {e : SysEvent} (h : MountedInv True s v)
    (h' : MountedInv True t w) (hcase : MountedStep s t v w e) {el : HtableEl}
    (hopen : 0 < (v.bentry el).refcount) : SameHentry (w.hentry el) (v.hentry el) := by
  obtain ⟨upd, held, ht, hlock⟩ := h.table
  obtain ⟨upd', held', ht', -⟩ := h'.table
  obtain ⟨i, hi, rfl⟩ := (ht.el el).entry (((ht.el el).refcount_pos trivial).1 hopen)
  have hcount := ((ht.el (v.slot i)).refcount_pos trivial).1 hopen
  have hconf : w.conf = v.conf ∧ w.slot i = v.slot i ∧
      SameHentry (tableEntry v.conf w.htableChunkCache i) (tableEntry v.conf v.htableChunkCache i) := by
    cases hcase with
    | call hc hto hw => obtain ⟨b, rfl⟩ := hw; exact ⟨rfl, rfl, .refl _⟩
    | remount hfrom hto hw => subst hw; exact ⟨rfl, rfl, .refl _⟩
    | readError hfrom hto hw => subst hw; exact ⟨rfl, rfl, .refl _⟩
    | readChunk hfrom hto hw => subst hw; exact ⟨rfl, rfl, .refl _⟩
    | feed hfrom hto hw => exact ⟨hw.conf, hw.slot i, by rw [hw.chunkCache]; exact .refl _⟩
    | take hfrom hto hw => obtain ⟨b, rfl⟩ := hw; exact ⟨rfl, rfl, .refl _⟩
    | unlock hfrom hto hw => subst hw; exact ⟨rfl, rfl, .refl _⟩
    | update hfrom hto hw =>
        subst hw
        rw [hfrom] at hlock
        obtain ⟨-, rfl, hat, -, hel⟩ := hlock
        refine ⟨by simp, by simp, reloadUpdate_frame hat.entry fun hij => ?_⟩
        -- the updated entry is held, so it is not open
        subst hij
        have h0 := (ht.el _).closed trivial hel.symm
        omega
  rw [ht.hentry_eq hi, ← hconf.2.1, ht'.hentry_eq (by rw [hconf.1]; exact hi), hconf.1]
  exact hconf.2.2

/-- A successful open of an entry nobody has open finds the update flag down and takes the semaphore. -/
theorem first_open_locks {s : Sys} {v : Vol} {e : SysEvent} (h : MountedInv True s v) (hv : s.vol = some v)
    (hen : sysEnabled s e) {el : HtableEl} (hok : openResult s e = some (.ok el))
    (h0 : (v.bentry el).refcount = 0) :
    (v.bentry el).update = false ∧ trydown (v.bentry el).updatelock = (true, 0) := by
  obtain ⟨upd, held, ht, -⟩ := h.table
  have hopen : ∀ x, v.InUse x ∨ v.IsEntry x → (openBentry s v x).1 = .ok el →
      (v.bentry el).update = false ∧ trydown (v.bentry el).updatelock = (true, 0) := by
    intro x hx hr
    unfold openBentry at hr
    cases ho : shfsFioOpenBentry v x with
    | error e => simp [ho] at hr
    | ok v' =>
        obtain rfl : x = el := by simpa [ho] using hr
        have hb := (shfsFioOpenBentry_ok.1 ho).1
        exact ⟨hb, (ht.el x).trydown_acquires trivial hx hb h0⟩
  cases e with
  | «open» path gone =>
      have hr : (shfsFioOpen s path gone).1 = .ok el := by simpa [openResult] using hok
      unfold shfsFioOpen at hr
      simp only [h.flag, hv, Bool.not_true, Bool.false_eq_true, if_false] at hr
      cases hf : shfsFioLookup v path with
      | none => simp [hf] at hr
      | some x =>
          rw [hf] at hr
          exact hopen x (h.lookup hf) hr
  | openh d gone =>
      have hr : (shfsFioOpenh s d gone).1 = .ok el := by simpa [openResult] using hok
      unfold shfsFioOpenh at hr
      simp only [hv] at hr
      cases hf : shfsLookupBentryByHash v d with
      | none => simp [hf] at hr
      | some x =>
          rw [hf] at hr
          exact hopen x (.inl (h.lookupHash hf)) hr
  | openf f =>
      -- a descriptor to clone keeps the counter above zero
      cases f with
      | none => simp [openResult, shfsFioOpenf] at hok
      | some x =>
          obtain rfl : x = el := by simpa [openResult, shfsFioOpenf, h.flag] using hok
          have hmem := List.count_pos_iff.2 (hen.2 x rfl)
          have hzero := ((ht.el x).refcount_eq_zero trivial).1 h0
          omega
  | mount i => cases hok
  | remount => cases hok
  | umount f b => cases hok
  | readDone r => cases hok
  | locker => cases hok
  | close f => cases hok

/-- The semaphore of an entry is down exactly while the entry is open or updated. -/
theorem updatelock_down_iff {s : Sys} {v : Vol} (h : MountedInv True s v) (hr : s.locker.remounts = true)
    {el : HtableEl} (he : v.IsEntry el) :
    (v.bentry el).updatelock = 0 ↔
      0 < (v.bentry el).refcount ∨ ∃ c e nchk, s.locker = .locked c e nchk el := by
  obtain ⟨upd, held, ht, hlock⟩ := h.table
  rw [(ht.el el).updatelock_eq_zero trivial he]
  refine or_congr_right ?_
  cases hl : s.locker with
  | idle =>
      rw [hl] at hlock
      simp [hlock.2, noMark]
  | read c =>
      rw [hl] at hlock
      simp [hlock.2.1, noMark]
  | entry c e nchk =>
      rw [hl] at hlock
      simp [hlock.2.1, noMark]
  | down c e nchk x =>
      rw [hl] at hlock
      simp [hlock.2.1, noMark]
  | out r =>
      rw [hl] at hlock
      simp [hlock.2, noMark]
  | locked c e nchk x =>
      rw [hl] at hlock
      simp [hlock.2.1, eq_comm]
  | mountLabel i => simp [hl, Locker.remounts] at hr
  | mountLoad i => simp [hl, Locker.remounts] at hr
  | mountClose r => simp [hl, Locker.remounts] at hr
  | umountClose => simp [hl, Locker.remounts] at hr
  | umountAt c => simp [hl, Locker.remounts] at hr
  | umountDown x => simp [hl, Locker.remounts] at hr

/-- In every run on a mounted volume that never opens an entry with a full counter: the semaphore of an
entry is down exactly while the entry is open or updated, every step keeps the bytes of the open entries,
and a first open meets no update and gets the semaphore. The opens, clones and closes of any number of
callers come in between the steps of a remount, wherever it waits or reads. -/
theorem metadata_stable {conf : VolConf} {rd : Nat → Option Bytes} {v₀ : Vol}
    {es : List SysEvent} {s : Sys} (hload : loadVolHtable conf rd = .ok (.ok v₀))
    (hrun : (mountedSys.restrict Countable).Run (Sys.mounted v₀) es s) :
    ∃ v, s.vol = some v ∧
      (∀ el, v.IsEntry el → ((v.bentry el).updatelock = 0 ↔
        0 < (v.bentry el).refcount ∨ ∃ c i nchk, s.locker = .locked c i nchk el)) ∧
      ∀ e t, (mountedSys.restrict Countable).Step s e t → ∃ w, t.vol = some w ∧
        (∀ el, 0 < (v.bentry el).refcount → SameHentry (w.hentry el) (v.hentry el)) ∧
        ∀ el, openResult s e = some (.ok el) → (v.bentry el).refcount = 0 →
          (v.bentry el).update = false ∧ trydown (v.bentry el).updatelock = (true, 0) := by
  obtain ⟨v, hv, -, hinv, hr⟩ := mountedOn_counted (mountedOn_load hload) hrun
  refine ⟨v, hv, fun el hel => updatelock_down_iff hinv hr hel, fun e t hstep => ?_⟩
  obtain ⟨hstep, hc⟩ := Machine.restrict_step.1 hstep
  obtain ⟨⟨w', hw', -, hinv'⟩, -⟩ := mountedSys_step hinv hv hr (fun _ => hc) hstep
  obtain ⟨w, hw, hcase⟩ := mountedSys_cases hinv hv hr hstep
  obtain rfl : w' = w := Option.some.inj (hw'.symm.trans hw)
  refine ⟨w', hw, fun el hel => open_entry_stable hinv hinv' hcase hel, fun el hok h0 => ?_⟩
  exact first_open_locks hinv hv hstep.1.1 hok h0

/-! ## A file under a remount -/

/-- A table chunk whose first entry is the default one, with the given byte as its digest. -/
def defaultChunk (digest : UInt8) : Bytes :=
  fun i => if i = 0 then digest else if i = 180 then 8 else 0

/-- A run on the volume with the given table, found by evaluation. -/
theorem exec_loaded (m : Machine Sys SysEvent Fault) [∀ s e, Decidable (m.Enabled s e)] {conf : VolConf}
    {chk : Bytes} {es : List SysEvent} {p : Sys → Vol → Bool}
    (h : (match loadVolHtable conf fun _ => some chk with
      | .ok (.ok v₀) => (m.exec (Sys.mounted v₀) es).any fun s => s.vol.any (p s)
      | _ => false) = true) :
    ∃ v₀ s v, loadVolHtable conf (fun _ => some chk) = .ok (.ok v₀) ∧ m.Run (Sys.mounted v₀) es s ∧
      s.vol = some v ∧ p s v = true := by
  split at h
  · rename_i v₀ hload
    obtain ⟨s, hrun, hp⟩ := Machine.Run.of_exec_any h
    obtain ⟨v, hv, hp⟩ := (Option.any_eq_true ..).1 hp
    exact ⟨v₀, s, v, hload, hrun, hv, hp⟩
  · cases h

/-- A remount that waits for the entry `el`. -/
def Sys.waitsFor (s : Sys) (el : HtableEl) : Bool :=
  match s.locker with
  | .down _ _ _ x => x == el
  | _ => false

/-- A remount that changes the default entry waits for the file that is open. -/
theorem metadata_stable_mounted : ∃ v₀ s v,
    loadVolHtable chunkArgs.conf (fun _ => some (defaultChunk 1)) = .ok (.ok v₀) ∧
    (mountedSys.restrict Countable).Run (Sys.mounted v₀)
      [.open [] none, .remount, .readDone (some (defaultChunk 2)), .locker] s ∧
    s.vol = some v ∧ s.waitsFor (v.slot 0) = true ∧ 0 < (v.bentry (v.slot 0)).refcount ∧
    (v.bentry (v.slot 0)).updatelock = 0 ∧
    ∀ e t, (mountedSys.restrict Countable).Step s e t → ∃ w, t.vol = some w ∧
      SameHentry (w.hentry (v.slot 0)) (v.hentry (v.slot 0)) := by
  obtain ⟨v₀, s, v, hload, hrun, hv, hp⟩ :=
    @exec_loaded (mountedSys.restrict Countable) _ chunkArgs.conf (defaultChunk 1)
      [.open [] none, .remount, .readDone (some (defaultChunk 2)), .locker]
      (fun s v => decide (s.waitsFor (v.slot 0) = true ∧ 0 < (v.bentry (v.slot 0)).refcount ∧
        0 < v.conf.htableNbEntries)) (by decide +kernel)
  obtain ⟨hwait, hopen, hpos⟩ := of_decide_eq_true hp
  obtain ⟨v', hv', hlock, hkeep⟩ := metadata_stable hload hrun
  obtain rfl : v = v' := Option.some.inj (hv.symm.trans hv')
  refine ⟨v₀, s, v, hload, hrun, hv, hwait, hopen, (hlock _ ⟨0, hpos, rfl⟩).2 (.inl hopen), fun e t hs => ?_⟩
  obtain ⟨w, hw, hsame, -⟩ := hkeep e t hs
  exact ⟨w, hw, hsame _ hopen⟩

/-! ## A counter that wraps -/

/-- Cloning a descriptor `n` times. -/
theorem clone_run {s : Sys} {v : Vol} {el : HtableEl} (hm : s.shfsMounted = true) (hv : s.vol = some v)
    (hy : s.locker.yields = true) (hel : el ∈ s.handles) (n : Nat) :
    ∃ t w, mountedSys.Run s (List.replicate n (.openf (some el))) t ∧ t.shfsMounted = true ∧
      t.vol = some w ∧ t.locker = s.locker ∧ el ∈ t.handles ∧ w.defBentry = v.defBentry ∧
      w.bentry el = { v.bentry el with refcount := (v.bentry el).refcount + UInt32.ofNat n } := by
  induction n with
  | zero =>
      have h0 : (v.bentry el).refcount + UInt32.ofNat 0 = (v.bentry el).refcount := UInt32.add_zero _
      exact ⟨s, v, .nil s, hm, hv, rfl, hel, rfl, by rw [h0]⟩
  | succ n ih =>
      obtain ⟨t, w, hrun, htm, htv, hloc, hth, hd, hb⟩ := ih
      have hopen : (shfsFioOpenf t (some el)).2 = { t with
          vol := some (shfsFioClone w el), shfsNbOpen := t.shfsNbOpen + 1, handles := el :: t.handles } := by
        simp [shfsFioOpenf, htm, htv]
      have hstep : mountedSys.Step t (.openf (some el)) _ :=
        Machine.restrict_step.2 ⟨⟨⟨hloc ▸ hy, fun x hx => Option.some.inj hx ▸ hth⟩, congrArg Except.ok hopen⟩, rfl⟩
      rw [List.replicate_succ']
      refine ⟨_, _, hrun.snoc hstep, htm, rfl, hloc, List.mem_cons_self, hd, ?_⟩
      rw [← Word.count_ofNat_succ, ← UInt32.add_assoc]
      simp [shfsFioClone, hb]

/-- With `2 ^ 32` descriptors of one entry its counter is zero: nobody updates it, and the semaphore is
held. The next open is a first open that does not get it. -/
theorem refcount_wraps : ∃ v₀ es s v, loadVolHtable chunkArgs.conf (fun _ => some (defaultChunk 1)) =
      .ok (.ok v₀) ∧
    mountedSys.Run (Sys.mounted v₀) es s ∧ s.vol = some v ∧ s.locker = .idle ∧ v.slot 0 ∈ s.handles ∧
    (v.bentry (v.slot 0)).refcount = 0 ∧ (v.bentry (v.slot 0)).updatelock = 0 ∧
    openResult s (.open [] none) = some (.ok (v.slot 0)) ∧
    trydown (v.bentry (v.slot 0)).updatelock = (false, 0) := by
  obtain ⟨v₀, s, v, hload, hrun, hv, hp⟩ :=
    @exec_loaded mountedSys _ chunkArgs.conf (defaultChunk 1) [.open [] none]
      (fun s v => decide (s.shfsMounted = true ∧ s.locker = .idle ∧ (0, 0) ∈ s.handles ∧
        v.defBentry = some (0, 0) ∧ (v.bentry (0, 0)).refcount = 1 ∧ (v.bentry (0, 0)).updatelock = 0 ∧
        (v.bentry (0, 0)).update = false)) (by decide +kernel)
  obtain ⟨hm, hl, hh, hd, hr, hsem, hu⟩ := of_decide_eq_true hp
  obtain ⟨t, w, hclones, htm, htv, htl, hth, hwd, hb⟩ :=
    clone_run hm hv (hl ▸ rfl) hh (2 ^ 32 - 1)
  have hslot : w.slot 0 = (0, 0) := by
    unfold Vol.slot Htable.slot
    rw [Nat.zero_div, Nat.zero_mod]
  rw [hr] at hb
  refine ⟨v₀, _, t, w, hload, hrun.append hclones, htv, htl.trans hl, ?_, ?_, ?_, ?_, ?_⟩ <;> rw [hslot]
  · exact hth
  · rw [hb]
    show (1 : UInt32) + UInt32.ofNat (2 ^ 32 - 1) = 0
    decide
  · rw [hb]
    exact hsem
  · have hf : shfsFioLookup w [] = some (0, 0) := hwd.trans hd
    have hwu : (w.bentry (0, 0)).update = false := by
      rw [hb]
      exact hu
    simp [openResult, shfsFioOpen, htm, htv, hf, openBentry, shfsFioOpenBentry, hwu]
  · rw [hb]
    show trydown (v.bentry (0, 0)).updatelock = _
    rw [hsem]
    rfl

end Minipython.Shfs
