/-
# Minipython.Shfs.RemountRange — the entries a remount feeds (shfs.c, reload_vol_htable)

Mounting feeds the entry numbers below `htable_nb_entries`. Remounting feeds every entry of every table
chunk, and the last chunk is full only if the entry count is a multiple of the entries of a chunk.
Otherwise a remount that nobody blocks walks past the table, and the assertion of `shfs_btable_feed`
stops the program: `remount_reaches` is that run, `feedsInRange_of_dvd` the other direction.

The volume is one that the formatting tool lays out for any of its arguments (`MkfsArgs.conf`), with any
content in its table. What the disk says at the time of the remount is another content, as the files of the
volume may have changed. `FeedsInRange` says of a state that the slot that comes next is a slot of the
table; at the first entry behind it the run is stopped by the assertion.

The other direction needs no run of its own: where the entries fill their last chunk, each number that the
loop comes to is below `htable_nb_entries`.
-/
import Minipython.Shfs.SystemInv
import Minipython.Tools.MkfsArgs

namespace Minipython.Shfs

open Minipython.Lib Minipython.Tools

/-- If the remount is about to feed an entry, its number is that of a slot and the assertion of
`shfs_btable_feed` holds. -/
def FeedsInRange (conf : VolConf) (s : Sys) : Prop :=
  ∀ c e nchk, s.locker = .entry c e nchk →
    c * conf.htableNbEntriesPerChunk + e < conf.htableNbBuckets * conf.htableNbEntriesPerBucket ∧
      lockerStep s ≠ .error .assert

/-- Full chunks keep a remount within the table. -/
theorem feedsInRange_of_dvd {counted : Prop} {conf : VolConf} {s : Sys} (h : MountedOn counted conf s)
    (hdvd : conf.htableNbEntriesPerChunk ∣ conf.htableNbEntries) : FeedsInRange conf s := by
  obtain ⟨v, hv, rfl, hinv, -⟩ := h
  intro c e nchk hl
  obtain ⟨upd, held, ht, hlock⟩ := hinv.table
  rw [hl] at hlock
  obtain ⟨-, -, hat⟩ := hlock
  have hlen := v.conf.htableLen_mul hdvd
  have hlt : c * v.conf.htableNbEntriesPerChunk + e <
      v.conf.htableNbBuckets * v.conf.htableNbEntriesPerBucket := by
    calc c * v.conf.htableNbEntriesPerChunk + e
        < c * v.conf.htableNbEntriesPerChunk + v.conf.htableNbEntriesPerChunk :=
          Nat.add_lt_add_left hat.entry _
      _ = (c + 1) * v.conf.htableNbEntriesPerChunk := (Nat.succ_mul _ _).symm
      _ ≤ v.conf.htableLen * v.conf.htableNbEntriesPerChunk := Nat.mul_le_mul_right _ hat.chunk
      _ = v.conf.htableNbEntries := hlen
      _ ≤ _ := v.conf.nbEntries_le
  refine ⟨hlt, fun herr => ?_⟩
  rcases hinv.entry hv hl with ⟨hend, -⟩ | ⟨v', -, hok, -⟩
  · rw [hend, ht.sized.1, ht.sized.2.1] at hlt
    exact lt_irrefl _ hlt
  · rw [hok] at herr
    cases herr

/-- While no file is open, a remount gets from one entry to the next. -/
theorem remount_advance {conf : VolConf} {disk : Nat → Bytes} {s : Sys} (h : MountedOn True conf s)
    (hopen : s.handles = []) {c e : Nat} {nchk : Bytes} (hl : s.locker = .entry c e nchk)
    (hi : c * conf.htableNbEntriesPerChunk + e < conf.htableNbEntries) :
    ∃ es t, (remountSys conf disk).Run s es t ∧ t.handles = [] ∧ MountedOn True conf t ∧
      t.locker = atEntry conf c (e + 1) nchk := by
  have hon := h
  obtain ⟨v, hv, rfl, hinv, -⟩ := h
  obtain ⟨upd, held, ht, hlock⟩ := hinv.table
  rcases hinv.entry hv hl with ⟨hend, -⟩ | ⟨v₁, hfed, hstep₁, hinv₁⟩
  · -- the number is below the entry count, so it is no end of the table
    have hle := v.conf.nbEntries_le
    rw [ht.sized.1, ht.sized.2.1] at hend
    omega
  -- a step of the remount is within the remount unless it has returned
  have hin : ∀ {u : Sys}, (∀ r, u.locker ≠ .out r) →
      WithinRemount v.conf disk u .locker := fun hne =>
    ⟨rfl, fun _ _ _ he => (by cases he), fun r hr => absurd hr (hne r)⟩
  set s₁ : Sys := { s with
    vol := some v₁
    locker := .down c e nchk (v.slot (c * v.conf.htableNbEntriesPerChunk + e)) } with hs₁
  have hrun₁ : (remountSys v.conf disk).Step s .locker s₁ :=
    ⟨⟨by simp [sys, sysEnabled, Sys.lockerReady, hl], hin (by simp [hl])⟩, hstep₁⟩
  -- the entry is in use by nobody, so its semaphore is free
  have hfree : (v₁.bentry (v.slot (c * v.conf.htableNbEntriesPerChunk + e))).updatelock = 1 := by
    obtain ⟨upd₁, held₁, ht₁, hlock₁⟩ := hinv₁.table
    obtain ⟨-, rfl, -⟩ := hlock₁
    refine (ht₁.el _).unlocked trivial ⟨_, by rw [hfed.conf]; exact hi, hfed.slot _⟩ id ?_
    show s.handles.count _ = 0
    rw [hopen]
    rfl
  set v₂ : Vol := v₁.setBentry (v.slot (c * v.conf.htableNbEntriesPerChunk + e))
    { v₁.bentry (v.slot (c * v.conf.htableNbEntriesPerChunk + e)) with
      updatelock := (v₁.bentry (v.slot (c * v.conf.htableNbEntriesPerChunk + e))).updatelock - 1 }
    with hv₂
  set s₂ : Sys := { s₁ with
    vol := some v₂
    locker := .locked c e nchk (v.slot (c * v.conf.htableNbEntriesPerChunk + e)) } with hs₂
  have hrun₂ : (remountSys v.conf disk).Step s₁ .locker s₂ :=
    ⟨⟨by simp [sys, sysEnabled, Sys.lockerReady, hs₁, hfree], hin (by simp [hs₁])⟩, rfl⟩
  set s₃ : Sys := { s₂ with
    vol := some (reloadUpdate v₂ c e nchk (v.slot (c * v.conf.htableNbEntriesPerChunk + e)))
    locker := atEntry v₂.conf c (e + 1) nchk } with hs₃
  have hrun₃ : (remountSys v.conf disk).Step s₂ .locker s₃ :=
    ⟨⟨by simp [sys, sysEnabled, Sys.lockerReady, hs₂], hin (by simp [hs₂])⟩, rfl⟩
  -- none of these steps opens a file
  have hkeep : ∀ {u u' : Sys}, MountedOn True v.conf u → (remountSys v.conf disk).Step u .locker u' →
      MountedOn True v.conf u' := fun hu hs =>
    mountedOn_step hu (fun _ => countable_of_none rfl) (remountSys_step hs)
  refine ⟨_, s₃, .cons hrun₁ (.cons hrun₂ (.single hrun₃)), hopen,
    hkeep (hkeep (hkeep hon hrun₁) hrun₂) hrun₃, ?_⟩
  show atEntry v₂.conf c (e + 1) nchk = _
  rw [hv₂, Vol.setBentry_conf, hfed.conf]

/-- A chunk of the table is read. -/
theorem remount_read {conf : VolConf} {disk : Nat → Bytes} {s : Sys} (h : MountedOn True conf s) {c : Nat}
    (hl : s.locker = .read c) :
    ∃ es t, (remountSys conf disk).Run s es t ∧ t.handles = s.handles ∧ MountedOn True conf t ∧
      t.locker = .entry c 0 (disk (conf.htableChunk c)) := by
  have hon := h
  obtain ⟨v, hv, rfl, -, -⟩ := h
  have hin : WithinRemount v.conf disk s (.readDone (some (disk (v.conf.htableChunk c)))) := by
    refine ⟨rfl, fun c' nchk hc' he => ?_, fun r hr => by rw [hl] at hr; cases hr⟩
    obtain rfl : c = c' := by simpa [hl] using hc'
    simpa using he.symm
  have hstep : (remountSys v.conf disk).Step s (.readDone (some (disk (v.conf.htableChunk c))))
      (readDone s (some (disk (v.conf.htableChunk c)))) := ⟨⟨⟨c, hl⟩, hin⟩, rfl⟩
  refine ⟨_, _, .single hstep, ?_, mountedOn_step hon (fun _ => countable_of_none rfl)
    (remountSys_step hstep), ?_⟩
  · simp [readDone, hl, hv]
  · simp only [readDone, hl, hv]
    rw [atEntry, if_pos v.conf.entriesPerChunk_pos]

/-- A remount that nobody blocks reaches every entry of the table chunks, up to the entry count. -/
theorem remount_reaches {conf : VolConf} (disk : Nat → Bytes) {s : Sys} (h : MountedOn True conf s)
    (hidle : s.locker = .idle) (hopen : s.handles = []) {i : Nat} (hi : i ≤ conf.htableNbEntries)
    (hlt : i < conf.htableLen * conf.htableNbEntriesPerChunk) :
    ∃ c e es t, c * conf.htableNbEntriesPerChunk + e = i ∧
      (remountSys conf disk).Run (remountShfs s) es t ∧ t.handles = [] ∧ MountedOn True conf t ∧
      t.locker = .entry c e (disk (conf.htableChunk c)) := by
  have hstep : mountedSys.Step s .remount (remountShfs s) := ⟨⟨hidle, rfl⟩, rfl⟩
  have hon := mountedOn_step h (fun _ => countable_of_none rfl) hstep
  have hrem : (remountShfs s).locker = .read 0 ∧ (remountShfs s).handles = [] := by
    obtain ⟨v, hv, rfl, hinv, -⟩ := h
    have h0 : 0 < v.conf.htableLen := Nat.pos_of_ne_zero v.conf.htableLen_ne
    simp [remountShfs, hinv.flag, hv, atChunk, h0, hopen]
  induction i with
  | zero =>
      obtain ⟨es, t, hrun, hh, hont, hl⟩ := @remount_read conf disk _ hon 0 hrem.1
      exact ⟨0, 0, es, t, by simp, hrun, hh.trans hrem.2, hont, hl⟩
  | succ i ih =>
      obtain ⟨c, e, es, t, rfl, hrun, hh, hont, hl⟩ := ih (by omega) (by omega)
      obtain ⟨es₁, t₁, hrun₁, hh₁, hont₁, hl₁⟩ := @remount_advance conf disk t hont hh c e _ hl (by omega)
      by_cases he : e + 1 < conf.htableNbEntriesPerChunk
      · -- the next entry is in the same chunk
        exact ⟨c, e + 1, _, t₁, rfl, hrun.append hrun₁, hh₁, hont₁, by rw [hl₁, atEntry, if_pos he]⟩
      · -- it is the first of the next chunk, which exists as the chunks do not end here
        have hle : e < conf.htableNbEntriesPerChunk := by
          obtain ⟨v, hv, rfl, hinv, -⟩ := hont
          obtain ⟨upd, held, -, hlock⟩ := hinv.table
          rw [hl] at hlock
          exact hlock.2.2.entry
        have hnext : (c + 1) * conf.htableNbEntriesPerChunk =
            c * conf.htableNbEntriesPerChunk + e + 1 := by
          rw [Nat.succ_mul]
          omega
        have hc : c + 1 < conf.htableLen := by
          rw [← hnext] at hlt
          exact lt_of_mul_lt_mul_right hlt (Nat.zero_le _)
        have hl₂ : t₁.locker = .read (c + 1) := by
          rw [hl₁, atEntry, if_neg he, atChunk, if_pos hc]
        obtain ⟨es₂, t₂, hrun₂, hh₂, hont₂, hl₃⟩ := @remount_read conf disk t₁ hont₁ (c + 1) hl₂
        exact ⟨c + 1, 0, _, t₂, hnext, (hrun.append hrun₁).append hrun₂, hh₂.trans hh₁, hont₂, hl₃⟩

/-- If the entries fill their last chunk, a remount that nobody blocks returns 0. -/
theorem remount_returns {conf : VolConf} (disk : Nat → Bytes) {s : Sys} (h : MountedOn True conf s)
    (hidle : s.locker = .idle) (hopen : s.handles = [])
    (hdvd : conf.htableNbEntriesPerChunk ∣ conf.htableNbEntries) :
    ∃ es t, (remountSys conf disk).Run (remountShfs s) es t ∧ t.locker = .out none := by
  have hlen := conf.htableLen_mul hdvd
  have hpos := conf.nbEntries_pos
  have hp := conf.entriesPerChunk_pos
  obtain ⟨c, e, es, t, hi, hrun, hh, hont, hl⟩ := remount_reaches disk h hidle hopen
    (show conf.htableNbEntries - 1 ≤ conf.htableNbEntries by omega) (by omega)
  have hat : c < conf.htableLen ∧ e < conf.htableNbEntriesPerChunk := by
    obtain ⟨v, hv, rfl, hinv, -⟩ := hont
    obtain ⟨upd, held, -, hlock⟩ := hinv.table
    rw [hl] at hlock
    exact ⟨hlock.2.2.chunk, hlock.2.2.entry⟩
  obtain ⟨es₁, t₁, hrun₁, -, -, hl₁⟩ := @remount_advance conf disk t hont hh c e _ hl (by omega)
  refine ⟨_, t₁, hrun.append hrun₁, ?_⟩
  -- the last entry is the last of the last chunk
  have hend : conf.htableLen * conf.htableNbEntriesPerChunk =
      c * conf.htableNbEntriesPerChunk + (e + 1) := by omega
  have hc : conf.htableLen = c + 1 := by
    have h1 : c * conf.htableNbEntriesPerChunk < conf.htableLen * conf.htableNbEntriesPerChunk := by
      omega
    have h2 : conf.htableLen * conf.htableNbEntriesPerChunk ≤ (c + 1) * conf.htableNbEntriesPerChunk := by
      rw [Nat.succ_mul]
      omega
    have h3 := lt_of_mul_lt_mul_right h1 (Nat.zero_le _)
    have h4 := le_of_mul_le_mul_right h2 hp
    omega
  have he : ¬e + 1 < conf.htableNbEntriesPerChunk := by
    rw [hc, Nat.succ_mul] at hend
    omega
  rw [hl₁, atEntry, if_neg he, atChunk, if_neg (by omega)]

/-- A remount of a table with a last chunk that is not full can run into the assertion. -/
theorem remount_overruns {conf : VolConf} {s : Sys} (h : MountedOn True conf s) (hidle : s.locker = .idle)
    (hopen : s.handles = []) (hdvd : ¬conf.htableNbEntriesPerChunk ∣ conf.htableNbEntries)
    (hn : conf.htableNbEntries = conf.htableNbBuckets * conf.htableNbEntriesPerBucket) :
    ∃ es t, mountedSys.Run s es t ∧ ¬FeedsInRange conf t := by
  have hlt : conf.htableNbEntries < conf.htableLen * conf.htableNbEntriesPerChunk :=
    lt_of_le_of_ne conf.nbEntries_le_len fun heq => hdvd ⟨conf.htableLen, by rw [Nat.mul_comm]; exact heq⟩
  obtain ⟨c, e, es, t, hi, hrun, -, -, hl⟩ := remount_reaches (fun _ => Bytes.zeros) h hidle hopen le_rfl hlt
  have hstep : mountedSys.Step s .remount (remountShfs s) := ⟨⟨hidle, rfl⟩, rfl⟩
  refine ⟨_, t, .cons hstep (hrun.mono fun _ _ _ => remountSys_step), fun hf => ?_⟩
  have := (hf c e _ hl).1
  omega

/-- Remounting a volume that mkfs formatted feeds slots of the table only, whatever is on disk and whoever
opens and closes files meanwhile, if and only if the entries fill their last chunk. The direction to the
right is a run: where the last chunk is not full, a remount that nobody blocks comes to the entry behind the
table. -/
theorem remount_feeds_in_range_iff (a : MkfsArgs) :
    (∀ rd v es s, loadVolHtable a.conf rd = .ok (.ok v) → mountedSys.Run (Sys.mounted v) es s →
        FeedsInRange a.conf s) ↔
      shfsHentriesPerChunk a.geom.chunksize ∣ a.bucketCount * a.entriesPerBucket := by
  rw [← a.conf_nbEntries]
  constructor
  · intro hall
    by_contra hdvd
    obtain ⟨v, hv⟩ := exists_load a.conf fun _ => Bytes.zeros
    have hn : a.conf.htableNbEntries = a.conf.htableNbBuckets * a.conf.htableNbEntriesPerBucket := by
      rw [a.conf_nbEntries, a.conf_nbBuckets, a.conf_nbEntriesPerBucket]
    obtain ⟨es, t, hrun, hno⟩ := remount_overruns (mountedOn_load hv) rfl rfl hdvd hn
    exact hno (hall _ v es t hv hrun)
  · intro hdvd rd v es s hv hrun
    exact feedsInRange_of_dvd (mountedOn_run (mountedOn_load hv) hrun) hdvd

/-- A table with a single entry: the first remount feeds the number 1. -/
theorem remount_overruns_tiny :
    ∃ rd v es s, loadVolHtable tinyArgs.conf rd = .ok (.ok v) ∧
      mountedSys.Run (Sys.mounted v) es s ∧ ¬FeedsInRange tinyArgs.conf s := by
  obtain ⟨v, hv⟩ := exists_load tinyArgs.conf fun _ => Bytes.zeros
  have hdvd : ¬tinyArgs.conf.htableNbEntriesPerChunk ∣ tinyArgs.conf.htableNbEntries := by decide
  obtain ⟨es, t, hrun, hno⟩ := remount_overruns (mountedOn_load hv) rfl rfl hdvd (by decide)
  exact ⟨_, v, es, t, hv, hrun, hno⟩

end Minipython.Shfs
