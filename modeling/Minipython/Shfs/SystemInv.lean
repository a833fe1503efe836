/-
# Minipython.Shfs.SystemInv — the invariant of the file system as a whole

`MountedInv` adds the holder of the mount lock to `TableInv`: which entries it has closed for opens and
which semaphores it holds follows from its program counter, and a remount has not yet left the table.
`mounted_step` is the step lemma: a step keeps the invariant, or it is the one that frees the table.

Where the invariant is to say that the counters count right (`counted`), a step that opens an entry whose
counter has its largest value is left out (`Countable`); where it does not, every step keeps it. So
`mountedOn_run` is about all runs on a mounted volume and `mountedOn_counted` about those without a wrap.

`mountedSys` leaves out the events that end a mount or begin one, and `remountSys` is the part of it up to
the return of a remount. `MountedStep` lists what a step on a mounted volume can do to it, with the guards
that led there; the results on open files, on the counters and on remounts are by cases on it.
-/
import Minipython.Shfs.TableInv

namespace Minipython.Shfs

open Minipython.Lib

/-- The remount is at entry `e` of chunk `c`, and every entry before was a slot of the table. -/
structure AtIndex (v : Vol) (c e : Nat) : Prop where
  chunk : c < v.conf.htableLen
  entry : e < v.conf.htableNbEntriesPerChunk
  le : c * v.conf.htableNbEntriesPerChunk + e ≤ v.bt.nbBkts * v.bt.elPerBkt

/-- The marks of the holder of the mount lock. -/
def LockerInv (v : Vol) (upd held : HtableEl → Prop) : Locker → Prop
  | .idle | .out _ => upd = noMark ∧ held = noMark
  | .read c => upd = noMark ∧ held = noMark ∧ AtIndex v c 0
  | .entry c e _ => upd = noMark ∧ held = noMark ∧ AtIndex v c e
  | .down c e _ el => upd = (· = el) ∧ held = noMark ∧ AtIndex v c e ∧
      c * v.conf.htableNbEntriesPerChunk + e < v.bt.nbBkts * v.bt.elPerBkt ∧
      el = v.slot (c * v.conf.htableNbEntriesPerChunk + e)
  | .locked c e _ el => upd = (· = el) ∧ held = (· = el) ∧ AtIndex v c e ∧
      c * v.conf.htableNbEntriesPerChunk + e < v.bt.nbBkts * v.bt.elPerBkt ∧
      el = v.slot (c * v.conf.htableNbEntriesPerChunk + e)
  | .umountAt cur => ∃ done rest, v.bt.Listed (done ++ rest) ∧ cur = rest.head? ∧
      upd = (· ∈ done) ∧ held = (· ∈ done)
  | .umountDown el => ∃ done rest, v.bt.Listed (done ++ el :: rest) ∧
      upd = (fun x => x = el ∨ x ∈ done) ∧ held = (· ∈ done)
  | .mountLabel _ | .mountLoad _ | .mountClose _ | .umountClose => False

/-- A mounted file system. -/
structure MountedInv (counted : Prop) (s : Sys) (v : Vol) : Prop where
  flag : s.shfsMounted = true
  nbOpen : s.shfsNbOpen = UInt32.ofNat s.handles.length
  table : ∃ upd held, TableInv counted v s.handles upd held ∧ LockerInv v upd held s.locker

/-- The counter of the entry that the event opens can count one more descriptor. -/
def Countable (s : Sys) (e : SysEvent) : Prop :=
  ∀ el, openResult s e = some (.ok el) → ∀ v, s.vol = some v → (v.bentry el).refcount.toNat + 1 < 2 ^ 32

instance (s : Sys) (e : SysEvent) : Decidable (Countable s e) :=
  inferInstanceAs (Decidable (∀ el, openResult s e = some (.ok el) →
    ∀ v, s.vol = some v → (v.bentry el).refcount.toNat + 1 < 2 ^ 32))

/-- Only the calls that open need room in a counter. -/
theorem countable_of_none {s : Sys} {e : SysEvent} (h : openResult s e = none) : Countable s e :=
  fun el hel => by
    rw [h] at hel
    cases hel

/-! ## The program counter of a remount -/

theorem atChunk_inv {v : Vol} {c : Nat}
    (hle : c * v.conf.htableNbEntriesPerChunk ≤ v.bt.nbBkts * v.bt.elPerBkt) :
    LockerInv v noMark noMark (atChunk v.conf c) := by
  unfold atChunk
  by_cases hc : c < v.conf.htableLen
  · rw [if_pos hc]
    exact ⟨rfl, rfl, hc, v.conf.entriesPerChunk_pos, by simpa using hle⟩
  · rw [if_neg hc]
    exact ⟨rfl, rfl⟩

theorem atEntry_inv {v : Vol} {c e : Nat} (nchk : Bytes) (hc : c < v.conf.htableLen)
    (he : e ≤ v.conf.htableNbEntriesPerChunk)
    (hle : c * v.conf.htableNbEntriesPerChunk + e ≤ v.bt.nbBkts * v.bt.elPerBkt) :
    LockerInv v noMark noMark (atEntry v.conf c e nchk) := by
  unfold atEntry
  by_cases hlt : e < v.conf.htableNbEntriesPerChunk
  · rw [if_pos hlt]
    exact ⟨rfl, rfl, hc, hlt, hle⟩
  · rw [if_neg hlt]
    have h1 : e = v.conf.htableNbEntriesPerChunk := by omega
    refine atChunk_inv ?_
    rw [Nat.succ_mul]
    omega

/-- Marking by an update or by a forced unmount changes neither the list nor the configuration, so the
program counter stays right. -/
theorem LockerInv.congr {v v' : Vol} {upd held : HtableEl → Prop} {l : Locker}
    (h : LockerInv v upd held l) (hconf : v'.conf = v.conf) (hbt : v'.bt = v.bt) :
    LockerInv v' upd held l := by
  have hat : ∀ c e, AtIndex v c e → AtIndex v' c e := fun c e ha =>
    ⟨by rw [hconf]; exact ha.chunk, by rw [hconf]; exact ha.entry, by rw [hconf, hbt]; exact ha.le⟩
  cases l with
  | idle => exact h
  | mountLabel i => exact h
  | mountLoad i => exact h
  | mountClose r => exact h
  | umountClose => exact h
  | out r => exact h
  | read c => exact ⟨h.1, h.2.1, hat _ _ h.2.2⟩
  | entry c e n => exact ⟨h.1, h.2.1, hat _ _ h.2.2⟩
  | down c e n el =>
      obtain ⟨h1, h2, h3, h4, h5⟩ := h
      exact ⟨h1, h2, hat _ _ h3, by rw [hconf, hbt]; exact h4, by rw [hconf, Vol.slot, hbt]; exact h5⟩
  | locked c e n el =>
      obtain ⟨h1, h2, h3, h4, h5⟩ := h
      exact ⟨h1, h2, hat _ _ h3, by rw [hconf, hbt]; exact h4, by rw [hconf, Vol.slot, hbt]; exact h5⟩
  | umountAt cur => simpa only [LockerInv, hbt] using h
  | umountDown el => simpa only [LockerInv, hbt] using h

/-! ## Steps of the holder of the mount lock -/

theorem sized_lt {v : Vol} (h : v.Sized) : v.bt.nbBkts < u32Size := by
  rw [h.1]
  exact UInt32.toNat_lt _

theorem Vol.Sized.elPerBkt_pos {v : Vol} (h : v.Sized) : 0 < v.bt.elPerBkt := by
  have := h.lt v.conf.nbEntries_pos
  exact Nat.pos_of_ne_zero fun h0 => by simp [h0] at this

/-- `v'` is `v` with the entry `new` fed into the slot number `i` and that slot closed for opens. -/
structure Fed (v v' : Vol) (i : Nat) (new : Hentry) : Prop where
  lt : i < v.bt.nbBkts * v.bt.elPerBkt
  conf : v'.conf = v.conf
  geom : v.bt.SameGeom v'.bt
  chunkCache : v'.htableChunkCache = v.htableChunkCache
  dflt : v'.defBentry = v.defBentry
  hash : v'.bt.h = Function.update v.bt.h (v.slot i) (hashCopy (v.bt.h (v.slot i)) new v.conf.hlen)
  bentry : v'.bentry = Function.update v.bentry (v.slot i) { v.bentry (v.slot i) with update := true }
  list : ∀ l, v.bt.Listed l → v'.bt.Listed
    (l.filter (· ≠ v.slot i) ++ if hashIsZero new v.conf.hlen then [] else [v.slot i])

theorem Fed.slot {v v' : Vol} {i : Nat} {new : Hentry} (h : Fed v v' i new) (j : Nat) :
    v'.slot j = v.slot j := h.geom.slot j

/-- Feeding an entry the remount is at: the assertion of `shfs_btable_feed` fails exactly at the first
index behind the table. -/
theorem reloadEntry_cases {counted : Prop} {v : Vol} {hs : List HtableEl} {c e : Nat} (nchk : Bytes)
    (h : TableInv counted v hs noMark noMark) (ha : AtIndex v c e) :
    (c * v.conf.htableNbEntriesPerChunk + e = v.bt.nbBkts * v.bt.elPerBkt ∧
      reloadEntry v c e nchk = .error .assert) ∨
    ∃ v', reloadEntry v c e nchk =
        .ok (some (v.slot (c * v.conf.htableNbEntriesPerChunk + e)), v') ∧
      Fed v v' (c * v.conf.htableNbEntriesPerChunk + e) (chunkEntry v.conf nchk e) := by
  rw [reloadEntry_eq]
  rcases Nat.eq_or_lt_of_le ha.le with heq | hlt
  · left
    refine ⟨heq, ?_⟩
    rw [heq, feed_end _ h.sized.elPerBkt_pos (sized_lt h.sized)]
    rfl
  · right
    have hspec := fun {l} (hl : v.bt.Listed l) => feed_spec hl (chunkEntry v.conf nchk e) hlt
      (le_of_lt (sized_lt h.sized)) (h.sized.2.1 ▸ v.conf.nbEntriesPerBucket_le)
    obtain ⟨l, hl⟩ := h.listed
    obtain ⟨bt, hfeed, hg, hbh, -⟩ := hspec hl
    rw [hfeed]
    rw [h.sized.2.2] at hbh
    refine ⟨_, rfl, hlt, rfl, hg, rfl, rfl, hbh, rfl, fun l' hl' => ?_⟩
    -- the table is the same one whatever list it is described by
    obtain ⟨bt', hfeed', -, -, hlisted⟩ := hspec hl'
    obtain rfl : bt = bt' := by simpa [hfeed] using hfeed'
    rwa [h.sized.2.2] at hlisted

/-- Feeding marks the slot. -/
theorem TableInv.fed {counted : Prop} {v v' : Vol} {hs : List HtableEl} {i : Nat} {new : Hentry}
    (h : TableInv counted v hs noMark noMark) (hf : Fed v v' i new) :
    TableInv counted v' hs (· = v.slot i) noMark := by
  obtain ⟨l, hl⟩ := h.listed
  have hm := h.feed (v.slot i) hf.geom (hf.list l hl)
    fun x hx => by rw [hf.hash, Function.update_of_ne hx]
  have hmark : (fun x => x = v.slot i ∨ noMark x) = (· = v.slot i) := by
    funext x
    simp [noMark]
  rw [hmark] at hm
  have hv : v' = { v with bt := v'.bt }.setBentry (v.slot i)
      { v.bentry (v.slot i) with update := true } := by
    obtain ⟨conf, bt, chk, bentry, dflt⟩ := v'
    obtain ⟨-, rfl, -, rfl, rfl, -, rfl, -⟩ := hf
    rfl
  rwa [hv]

/-! ## The step lemma -/

/-- A second mount is refused. -/
theorem mountShfs_mounted {s : Sys} (h : s.shfsMounted = true) (i : MountInput) :
    ∃ r, mountShfs s i = { s with locker := .out r } := by
  cases i <;> simp [mountShfs, h]

/-- What is left when the table goes: either no file was open, or a forced unmount has walked the whole
element list. -/
structure Unmounts (s t : Sys) : Prop where
  flag : t.shfsMounted = false
  vol : t.vol = none
  locker : t.locker = .umountClose
  handles : t.handles = s.handles
  nbOpen : t.shfsNbOpen = s.shfsNbOpen
  cause : s.shfsNbOpen = 0 ∧ s.locker = .idle ∨ s.locker = .umountAt none

/-- The step keeps the file system mounted on a table of the same configuration. -/
def Keeps (counted : Prop) (v : Vol) (t : Sys) : Prop :=
  ∃ v', t.vol = some v' ∧ v'.conf = v.conf ∧ MountedInv counted t v'

section Steps

variable {counted : Prop} {s t : Sys} {v : Vol}

/-- A move of the program counter between places without marks. -/
theorem MountedInv.goto (h : MountedInv counted s v) (hv : s.vol = some v) {l : Locker}
    (hfrom : ∀ upd held, LockerInv v upd held s.locker → upd = noMark ∧ held = noMark)
    (hto : LockerInv v noMark noMark l) : Keeps counted v { s with locker := l } := by
  obtain ⟨upd, held, ht, hlock⟩ := h.table
  obtain ⟨rfl, rfl⟩ := hfrom _ _ hlock
  exact ⟨v, hv, rfl, h.flag, h.nbOpen, noMark, noMark, ht, hto⟩

theorem MountedInv.idle_marks (hi : s.locker = .idle) (upd held : HtableEl → Prop)
    (h : LockerInv v upd held s.locker) : upd = noMark ∧ held = noMark := by
  rwa [hi] at h

theorem MountedInv.remount (h : MountedInv counted s v) (hv : s.vol = some v) (hi : s.locker = .idle) :
    Keeps counted v (remountShfs s) := by
  have hstep : remountShfs s = { s with locker := atChunk v.conf 0 } := by
    simp [remountShfs, h.flag, hv]
  rw [hstep]
  exact h.goto hv (MountedInv.idle_marks hi) (atChunk_inv (by simp))

theorem MountedInv.umount (h : MountedInv counted s v) (hv : s.vol = some v) (hi : s.locker = .idle)
    (force busy : Bool) :
    Keeps counted v (umountShfs s force busy) ∨ Unmounts s (umountShfs s force busy) := by
  have hstep : umountShfs s force busy =
      if s.shfsNbOpen ≠ 0 ∨ busy then
        if force then { s with locker := .umountAt v.bt.ends.first }
        else { s with locker := .out (some .ebusy) }
      else { s with shfsMounted := false, vol := none, locker := .umountClose } := by
    simp [umountShfs, h.flag, hv]
  rw [hstep]
  by_cases hb : s.shfsNbOpen ≠ 0 ∨ busy = true
  · left
    rw [if_pos hb]
    by_cases hf : force = true
    · rw [if_pos hf]
      obtain ⟨upd, held, ht, hlock⟩ := h.table
      obtain ⟨rfl, rfl⟩ := MountedInv.idle_marks hi _ _ hlock
      obtain ⟨l, hl⟩ := ht.listed
      refine ⟨v, hv, rfl, h.flag, h.nbOpen, noMark, noMark, ht, [], l, hl, hl.rep.first, ?_, ?_⟩ <;>
        funext x <;> simp [noMark]
    · rw [if_neg hf]
      exact h.goto hv (MountedInv.idle_marks hi) ⟨rfl, rfl⟩
  · right
    rw [if_neg hb]
    simp only [not_or, not_not] at hb
    exact ⟨rfl, rfl, rfl, rfl, rfl, .inl ⟨hb.1, hi⟩⟩

theorem MountedInv.readDone (h : MountedInv counted s v) (hv : s.vol = some v) {c : Nat}
    (hr : s.locker = .read c) (r : Option Bytes) : Keeps counted v (readDone s r) := by
  have hfrom : ∀ upd held, LockerInv v upd held s.locker → upd = noMark ∧ held = noMark := by
    rw [hr]
    exact fun upd held hl => ⟨hl.1, hl.2.1⟩
  cases r with
  | none =>
      have hstep : Minipython.Shfs.readDone s none = { s with locker := .out (some .eio) } := by
        simp [Minipython.Shfs.readDone, hr, hv]
      rw [hstep]
      exact h.goto hv hfrom ⟨rfl, rfl⟩
  | some nchk =>
      have hstep : Minipython.Shfs.readDone s (some nchk) =
          { s with locker := atEntry v.conf c 0 nchk } := by
        simp [Minipython.Shfs.readDone, hr, hv]
      rw [hstep]
      obtain ⟨upd, held, -, hlock⟩ := h.table
      rw [hr] at hlock
      exact h.goto hv hfrom (atEntry_inv nchk hlock.2.2.chunk (Nat.zero_le _) hlock.2.2.le)

/-- A step of the remount that is at an entry. -/
theorem MountedInv.entry (h : MountedInv counted s v) (hv : s.vol = some v) {c e : Nat} {nchk : Bytes}
    (hl : s.locker = .entry c e nchk) :
    (c * v.conf.htableNbEntriesPerChunk + e = v.bt.nbBkts * v.bt.elPerBkt ∧
      lockerStep s = .error .assert) ∨
    ∃ v', Fed v v' (c * v.conf.htableNbEntriesPerChunk + e) (chunkEntry v.conf nchk e) ∧
      lockerStep s = .ok { s with
        vol := some v'
        locker := .down c e nchk (v.slot (c * v.conf.htableNbEntriesPerChunk + e)) } ∧
      MountedInv counted { s with
        vol := some v'
        locker := .down c e nchk (v.slot (c * v.conf.htableNbEntriesPerChunk + e)) } v' := by
  obtain ⟨upd, held, ht, hlock⟩ := h.table
  rw [hl] at hlock
  obtain ⟨rfl, rfl, hat⟩ := hlock
  rcases reloadEntry_cases nchk ht hat with ⟨hend, herr⟩ | ⟨v', hok, hfed⟩
  · left
    refine ⟨hend, ?_⟩
    unfold lockerStep
    simp only [hl, hv, herr]
    rfl
  · right
    have hstep : lockerStep s = .ok { s with
        vol := some v'
        locker := .down c e nchk (v.slot (c * v.conf.htableNbEntriesPerChunk + e)) } := by
      unfold lockerStep
      simp only [hl, hv, hok]
      rfl
    refine ⟨v', hfed, hstep, h.flag, h.nbOpen, _, _, ht.fed hfed, rfl, rfl, ?_, ?_, ?_⟩
    · refine ⟨by rw [hfed.conf]; exact hat.chunk, by rw [hfed.conf]; exact hat.entry, ?_⟩
      rw [hfed.conf, hfed.geom.1, hfed.geom.2.1]
      exact hat.le
    · rw [hfed.conf, hfed.geom.1, hfed.geom.2.1]
      exact hfed.lt
    · rw [hfed.conf, hfed.slot]

/-- A `down` of the holder of the mount lock gets through on a closed entry. -/
theorem MountedInv.take (h : MountedInv counted s v) {upd held : HtableEl → Prop}
    (ht : TableInv counted v s.handles upd held) {el : HtableEl} (hr : 0 < (v.bentry el).updatelock)
    (hu : upd el) {l : Locker} (hl : LockerInv v upd (fun x => x = el ∨ held x) l) :
    Keeps counted v { s with
      vol := some (v.setBentry el { v.bentry el with updatelock := (v.bentry el).updatelock - 1 })
      locker := l } :=
  ⟨_, rfl, rfl, h.flag, h.nbOpen, _, _, ht.take hr hu, hl.congr rfl rfl⟩

theorem MountedInv.down (h : MountedInv counted s v) (hv : s.vol = some v) {c e : Nat} {nchk : Bytes}
    {el : HtableEl} (hl : s.locker = .down c e nchk el) (hr : s.lockerReady = true)
    (hs : lockerStep s = .ok t) : Keeps counted v t ∧ t.locker = .locked c e nchk el := by
  obtain ⟨upd, held, ht, hlock⟩ := h.table
  rw [hl] at hlock
  obtain ⟨rfl, rfl, hat, hlt, hel⟩ := hlock
  simp only [Sys.lockerReady, hl, hv, decide_eq_true_eq] at hr
  simp only [lockerStep, hl, hv, Except.ok.injEq] at hs
  subst hs
  have hheld : (fun x => x = el ∨ noMark x) = (· = el) := by
    funext x
    simp [noMark]
  refine ⟨h.take ht hr rfl ?_, rfl⟩
  exact ⟨rfl, hheld, hat, hlt, hel⟩

theorem MountedInv.locked (h : MountedInv counted s v) (hv : s.vol = some v) {c e : Nat} {nchk : Bytes}
    {el : HtableEl} (hl : s.locker = .locked c e nchk el) (hs : lockerStep s = .ok t) :
    Keeps counted v t := by
  obtain ⟨upd, held, ht, hlock⟩ := h.table
  rw [hl] at hlock
  obtain ⟨rfl, rfl, hat, hlt, hel⟩ := hlock
  simp only [lockerStep, hl, hv, Except.ok.injEq] at hs
  subst hs
  have hmark : (fun x => x ≠ el ∧ x = el) = noMark := by
    funext x
    simp [noMark]
  have hup := @TableInv.updated _ _ _ _ _ ht el rfl c e nchk
  rw [hmark] at hup
  refine ⟨_, rfl, by simp, h.flag, h.nbOpen, noMark, noMark, hup, ?_⟩
  exact (atEntry_inv nchk hat.chunk hat.entry hlt).congr (by simp) (by simp)

theorem MountedInv.umountStep (h : MountedInv counted s v) (hv : s.vol = some v) {el : HtableEl}
    (hl : s.locker = .umountAt (some el)) (hs : lockerStep s = .ok t) : Keeps counted v t := by
  obtain ⟨upd, held, ht, hlock⟩ := h.table
  rw [hl] at hlock
  obtain ⟨done, rest, hlist, hcur, rfl, rfl⟩ := hlock
  simp only [lockerStep, hl, hv, Except.ok.injEq] at hs
  subst hs
  cases rest with
  | nil => cases hcur
  | cons x xs =>
      obtain rfl : el = x := by simpa using hcur
      exact ⟨_, rfl, rfl, h.flag, h.nbOpen, _, _, ht.mark el, done, xs, hlist, rfl, rfl⟩

theorem MountedInv.umountDown (h : MountedInv counted s v) (hv : s.vol = some v) {el : HtableEl}
    (hl : s.locker = .umountDown el) (hr : s.lockerReady = true) (hs : lockerStep s = .ok t) :
    Keeps counted v t := by
  obtain ⟨upd, held, ht, hlock⟩ := h.table
  rw [hl] at hlock
  obtain ⟨done, rest, hlist, rfl, rfl⟩ := hlock
  simp only [Sys.lockerReady, hl, hv, decide_eq_true_eq] at hr
  simp only [lockerStep, hl, hv, Except.ok.injEq] at hs
  subst hs
  have hnext : v.bt.links.next el = rest.head? := by
    simpa using hlist.rep.neighbours.2
  refine h.take ht hr (.inl rfl) ⟨done ++ [el], rest, by simpa using hlist, hnext, ?_, ?_⟩ <;>
    funext x <;> simp [or_comm]

/-- The end of a forced unmount. -/
theorem MountedInv.umountEnd (hv : s.vol = some v) (hl : s.locker = .umountAt none)
    (hs : lockerStep s = .ok t) : Unmounts s t := by
  simp only [lockerStep, hl, hv, Except.ok.injEq] at hs
  subst hs
  exact ⟨rfl, rfl, rfl, rfl, rfl, .inr hl⟩

/-- One more descriptor is one more open file. -/
theorem MountedInv.nbOpen_succ (h : MountedInv counted s v) (el : HtableEl) :
    s.shfsNbOpen + 1 = UInt32.ofNat (el :: s.handles).length := by
  rw [h.nbOpen, Word.count_ofNat_succ, List.length_cons]

/-- A successful open of an entry or of a slot in use. -/
theorem MountedInv.openBentry (h : MountedInv counted s v) (hv : s.vol = some v) {el : HtableEl}
    (hel : v.InUse el ∨ v.IsEntry el)
    (hc : counted → (openBentry s v el).1 = .ok el → (v.bentry el).refcount.toNat + 1 < 2 ^ 32) :
    Keeps counted v (openBentry s v el).2 := by
  unfold Minipython.Shfs.openBentry at hc ⊢
  cases ho : shfsFioOpenBentry v el with
  | error e => exact ⟨v, hv, rfl, h⟩
  | ok v' =>
      rw [ho] at hc
      obtain ⟨upd, held, ht, hlock⟩ := h.table
      have hn : counted → s.handles.count el + 1 < 2 ^ 32 := fun hx => by
        rw [← (ht.el el).refcount_toNat hx]
        exact hc hx rfl
      have ht' := ht.openBentry hn hel ho
      obtain ⟨-, rfl⟩ := shfsFioOpenBentry_ok.1 ho
      exact ⟨_, rfl, rfl, h.flag, h.nbOpen_succ el, upd, held, ht', hlock.congr rfl rfl⟩

/-- What a path leads to is a slot in use or an entry. -/
theorem MountedInv.lookup (h : MountedInv counted s v) {path : List UInt8} {el : HtableEl}
    (hf : shfsFioLookup v path = some el) : v.InUse el ∨ v.IsEntry el := by
  obtain ⟨upd, held, ht, -⟩ := h.table
  obtain ⟨l, hl⟩ := ht.listed
  have hb : 0 < v.bt.nbBkts := Nat.pos_of_ne_zero fun h0 => by
    simpa [h0] using ht.sized.lt v.conf.nbEntries_pos
  rcases shfsFioLookup_used hl hb hf with ⟨-, hd⟩ | hu
  · exact .inr (ht.dflt el hd)
  · exact .inl ((hl.mem el).1 hu)

/-- What a digest leads to is a slot in use. -/
theorem MountedInv.lookupHash (h : MountedInv counted s v) {d : Hash512} {el : HtableEl}
    (hf : shfsLookupBentryByHash v d = some el) : v.InUse el := by
  obtain ⟨upd, held, ht, -⟩ := h.table
  obtain ⟨l, hl⟩ := ht.listed
  have hb : 0 < v.bt.nbBkts := Nat.pos_of_ne_zero fun h0 => by
    simpa [h0] using ht.sized.lt v.conf.nbEntries_pos
  exact (hl.mem el).1 (shfsLookupBentryByHash_used hl hb hf)

theorem MountedInv.open (h : MountedInv counted s v) (hv : s.vol = some v) (path : List UInt8)
    (gone : Option HtableEl) (hc : counted → Countable s (.open path gone)) :
    Keeps counted v (shfsFioOpen s path gone).2 := by
  unfold Countable openResult at hc
  unfold shfsFioOpen at hc ⊢
  simp only [h.flag, hv, Bool.not_true, Bool.false_eq_true, if_false] at hc ⊢
  cases hf : shfsFioLookup v path with
  | none => exact ⟨v, hv, rfl, h⟩
  | some el =>
      rw [hf] at hc
      exact h.openBentry hv (h.lookup hf) fun hx hok => hc hx el (congrArg some hok) v rfl

theorem MountedInv.openh (h : MountedInv counted s v) (hv : s.vol = some v) (d : Hash512)
    (gone : Option HtableEl) (hc : counted → Countable s (.openh d gone)) :
    Keeps counted v (shfsFioOpenh s d gone).2 := by
  unfold Countable openResult at hc
  unfold shfsFioOpenh at hc ⊢
  simp only [hv] at hc ⊢
  cases hf : shfsLookupBentryByHash v d with
  | none => exact ⟨v, hv, rfl, h⟩
  | some el =>
      rw [hf] at hc
      exact h.openBentry hv (.inl (h.lookupHash hf)) fun hx hok => hc hx el (congrArg some hok) v rfl

theorem MountedInv.openf (h : MountedInv counted s v) (hv : s.vol = some v) {f : Option HtableEl}
    (hf : ∀ el, f = some el → el ∈ s.handles) (hc : counted → Countable s (.openf f)) :
    Keeps counted v (shfsFioOpenf s f).2 := by
  cases f with
  | none => exact ⟨v, hv, rfl, h⟩
  | some el =>
      obtain ⟨upd, held, ht, hlock⟩ := h.table
      have hstep : (shfsFioOpenf s (some el)).2 = { s with
          vol := some (shfsFioClone v el), shfsNbOpen := s.shfsNbOpen + 1
          handles := el :: s.handles } := by
        simp [shfsFioOpenf, h.flag, hv]
      have hn : counted → s.handles.count el + 1 < 2 ^ 32 := fun hx => by
        rw [← (ht.el el).refcount_toNat hx]
        refine hc hx el ?_ v hv
        simp [openResult, shfsFioOpenf, h.flag]
      rw [hstep]
      exact ⟨_, rfl, rfl, h.flag, h.nbOpen_succ el, upd, held, ht.clone hn (hf el rfl),
        hlock.congr rfl rfl⟩

theorem MountedInv.close (h : MountedInv counted s v) (hv : s.vol = some v) {el : HtableEl}
    (hel : el ∈ s.handles) : Keeps counted v (shfsFioClose s el) := by
  obtain ⟨upd, held, ht, hlock⟩ := h.table
  have hstep : shfsFioClose s el = { s with
      vol := some (shfsFioRelease v el), shfsNbOpen := s.shfsNbOpen - 1
      handles := s.handles.erase el } := by
    simp [shfsFioClose, hv]
  rw [hstep]
  refine ⟨_, rfl, ?_, h.flag, ?_, upd, held, ht.release hel, hlock.congr ?_ ?_⟩
  · rw [shfsFioRelease_eq]
    rfl
  · show s.shfsNbOpen - 1 = UInt32.ofNat (s.handles.erase el).length
    rw [h.nbOpen, Word.count_ofNat_pred (List.length_pos_of_mem hel), List.length_erase_of_mem hel]
  · rw [shfsFioRelease_eq]
    rfl
  · rw [shfsFioRelease_eq]
    rfl

/-- A step of the holder of the mount lock. -/
theorem MountedInv.lockerStep (h : MountedInv counted s v) (hv : s.vol = some v)
    (hr : s.lockerReady = true) (hs : lockerStep s = .ok t) : Keeps counted v t ∨ Unmounts s t := by
  cases hl : s.locker with
  | idle => simp [Sys.lockerReady, hl] at hr
  | read c => simp [Sys.lockerReady, hl] at hr
  | mountLabel _ | mountLoad _ | mountClose _ | umountClose =>
      obtain ⟨upd, held, -, hlock⟩ := h.table
      rw [hl] at hlock
      exact hlock.elim
  | entry c e nchk =>
      left
      rcases h.entry hv hl with ⟨-, herr⟩ | ⟨v', hfed, hok, hinv⟩
      · rw [herr] at hs
        cases hs
      · rw [hok] at hs
        cases hs
        exact ⟨v', rfl, hfed.conf, hinv⟩
  | down c e nchk el => exact .inl (h.down hv hl hr hs).1
  | locked c e nchk el => exact .inl (h.locked hv hl hs)
  | umountAt cur =>
      cases cur with
      | none => exact .inr (MountedInv.umountEnd hv hl hs)
      | some el => exact .inl (h.umountStep hv hl hs)
  | umountDown el => exact .inl (h.umountDown hv hl hr hs)
  | out r =>
      left
      simp only [Minipython.Shfs.lockerStep, hl, Except.ok.injEq] at hs
      subst hs
      refine h.goto hv ?_ ⟨rfl, rfl⟩
      rw [hl]
      exact fun _ _ hlock => hlock

/-- A step of a mounted file system keeps it mounted and the invariant, or it frees the table. -/
theorem mounted_step (h : MountedInv counted s v) (hv : s.vol = some v) {e : SysEvent}
    (hc : counted → Countable s e) (hs : sys.Step s e t) : Keeps counted v t ∨ Unmounts s t := by
  obtain ⟨hen, hnext⟩ := hs
  cases e with
  | mount i =>
      left
      obtain rfl : mountShfs s i = t := by simpa [sys, sysNext] using hnext
      obtain ⟨r, hr⟩ := mountShfs_mounted h.flag i
      rw [hr]
      exact h.goto hv (MountedInv.idle_marks hen) ⟨rfl, rfl⟩
  | remount =>
      left
      obtain rfl : remountShfs s = t := by simpa [sys, sysNext] using hnext
      exact h.remount hv hen
  | umount force busy =>
      obtain rfl : umountShfs s force busy = t := by simpa [sys, sysNext] using hnext
      exact h.umount hv hen force busy
  | readDone r =>
      left
      obtain rfl : readDone s r = t := by simpa [sys, sysNext] using hnext
      obtain ⟨c, hc⟩ := hen
      exact h.readDone hv hc r
  | locker => exact h.lockerStep hv hen hnext
  | «open» path gone =>
      left
      obtain rfl : (shfsFioOpen s path gone).2 = t := by simpa [sys, sysNext] using hnext
      exact h.open hv path gone hc
  | openh d gone =>
      left
      obtain rfl : (shfsFioOpenh s d gone).2 = t := by simpa [sys, sysNext] using hnext
      exact h.openh hv d gone hc
  | openf f =>
      left
      obtain rfl : (shfsFioOpenf s f).2 = t := by simpa [sys, sysNext] using hnext
      exact h.openf hv hen.2 hc
  | close f =>
      left
      obtain rfl : shfsFioClose s f = t := by simpa [sys, sysNext] using hnext
      exact h.close hv hen.2

end Steps

/-! ## Runs on a mounted volume -/

/-- The state behind a successful `mount_shfs`. -/
def Sys.mounted (v : Vol) : Sys := ⟨true, 0, some v, .idle, []⟩

/-- A call of `shfs_fio_*`. -/
def SysEvent.isCall : SysEvent → Bool
  | .open .. | .openh .. | .openf _ | .close _ => true
  | _ => false

/-- Neither a mount nor an unmount. -/
def SysEvent.staysMounted : SysEvent → Bool
  | .mount _ | .umount .. => false
  | _ => true

/-- Opens, closes and remounts on a mounted volume. -/
def mountedSys : Machine Sys SysEvent Fault := sys.restrict fun _ e => e.staysMounted = true

instance (s : Sys) (e : SysEvent) : Decidable (mountedSys.Enabled s e) :=
  inferInstanceAs (Decidable (_ ∧ e.staysMounted = true))

/-- The mount lock is free or held by a remount. -/
def Locker.remounts : Locker → Bool
  | .idle | .read _ | .entry .. | .down .. | .locked .. | .out _ => true
  | _ => false

theorem remounts_atChunk (conf : VolConf) (c : Nat) : (atChunk conf c).remounts = true := by
  unfold atChunk
  split <;> rfl

theorem remounts_atEntry (conf : VolConf) (c e : Nat) (nchk : Bytes) :
    (atEntry conf c e nchk).remounts = true := by
  unfold atEntry
  split
  · rfl
  · exact remounts_atChunk conf _

/-- A call changes bucket entries and counters only. -/
theorem call_frame {s t : Sys} {v : Vol} {e : SysEvent} (hv : s.vol = some v) (hc : e.isCall = true)
    (hs : sysNext s e = .ok t) :
    t.locker = s.locker ∧ ∃ b, t.vol = some { v with bentry := b } := by
  have hopen : ∀ el, (openBentry s v el).2.locker = s.locker ∧
      ∃ b, (openBentry s v el).2.vol = some { v with bentry := b } := by
    intro el
    unfold openBentry
    cases ho : shfsFioOpenBentry v el with
    | error e => exact ⟨rfl, v.bentry, hv⟩
    | ok v' =>
        obtain ⟨-, rfl⟩ := shfsFioOpenBentry_ok.1 ho
        exact ⟨rfl, _, rfl⟩
  cases e with
  | mount i => cases hc
  | remount => cases hc
  | umount f b => cases hc
  | readDone r => cases hc
  | locker => cases hc
  | «open» path gone =>
      obtain rfl : (shfsFioOpen s path gone).2 = t := by simpa [sysNext] using hs
      unfold shfsFioOpen
      by_cases hm : s.shfsMounted = true
      · simp only [hm, hv, Bool.not_true, Bool.false_eq_true, if_false]
        cases shfsFioLookup v path with
        | none => exact ⟨rfl, v.bentry, hv⟩
        | some el => exact hopen el
      · simp only [hm, Bool.not_false, if_true]
        exact ⟨trivial, v.bentry, hv⟩
  | openh d gone =>
      obtain rfl : (shfsFioOpenh s d gone).2 = t := by simpa [sysNext] using hs
      unfold shfsFioOpenh
      simp only [hv]
      cases shfsLookupBentryByHash v d with
      | none => exact ⟨rfl, v.bentry, hv⟩
      | some el => exact hopen el
  | openf f =>
      obtain rfl : (shfsFioOpenf s f).2 = t := by simpa [sysNext] using hs
      unfold shfsFioOpenf
      cases f with
      | none => exact ⟨rfl, v.bentry, hv⟩
      | some el =>
          by_cases hm : s.shfsMounted = true
          · simp only [hm, hv, Bool.not_true, Bool.false_eq_true, if_false]
            exact ⟨trivial, _, rfl⟩
          · simp only [hm, Bool.not_false, if_true]
            exact ⟨trivial, v.bentry, hv⟩
  | close f =>
      obtain rfl : shfsFioClose s f = t := by simpa [sysNext] using hs
      refine ⟨rfl, (shfsFioRelease v f).bentry, ?_⟩
      simp only [shfsFioClose, hv, Option.map_some, shfsFioRelease_eq]
      rfl

/-- What a step without mount and unmount can do, while a remount holds the mount lock or nobody
does. -/
inductive MountedStep (s t : Sys) (v w : Vol) : SysEvent → Prop where
  | call {e : SysEvent} (he : e.isCall = true) (hto : t.locker = s.locker)
      (hw : ∃ b, w = { v with bentry := b }) : MountedStep s t v w e
  | remount (hfrom : s.locker = .idle) (hto : t.locker = atChunk v.conf 0) (hw : w = v) :
      MountedStep s t v w .remount
  | readError {c : Nat} (hfrom : s.locker = .read c) (hto : t.locker = .out (some .eio))
      (hw : w = v) : MountedStep s t v w (.readDone none)
  | readChunk {c : Nat} {nchk : Bytes} (hfrom : s.locker = .read c)
      (hto : t.locker = atEntry v.conf c 0 nchk) (hw : w = v) :
      MountedStep s t v w (.readDone (some nchk))
  | feed {c e : Nat} {nchk : Bytes} (hfrom : s.locker = .entry c e nchk)
      (hto : t.locker = .down c e nchk (v.slot (c * v.conf.htableNbEntriesPerChunk + e)))
      (hw : Fed v w (c * v.conf.htableNbEntriesPerChunk + e) (chunkEntry v.conf nchk e)) :
      MountedStep s t v w .locker
  | take {c e : Nat} {nchk : Bytes} {el : HtableEl} (hfrom : s.locker = .down c e nchk el)
      (hto : t.locker = .locked c e nchk el) (hw : ∃ b, w = { v with bentry := b }) :
      MountedStep s t v w .locker
  | update {c e : Nat} {nchk : Bytes} {el : HtableEl} (hfrom : s.locker = .locked c e nchk el)
      (hto : t.locker = atEntry v.conf c (e + 1) nchk) (hw : w = reloadUpdate v c e nchk el) :
      MountedStep s t v w .locker
  | unlock {r : Option Errno} (hfrom : s.locker = .out r) (hto : t.locker = .idle) (hw : w = v) :
      MountedStep s t v w .locker

theorem mountedSys_cases {counted : Prop} {s t : Sys} {v : Vol} {e : SysEvent} (h : MountedInv counted s v)
    (hv : s.vol = some v) (hr : s.locker.remounts = true) (hs : mountedSys.Step s e t) :
    ∃ w, t.vol = some w ∧ MountedStep s t v w e := by
  obtain ⟨⟨hen, he⟩, hnext⟩ := hs
  have hnext : sysNext s e = .ok t := hnext
  by_cases hc : e.isCall = true
  · obtain ⟨hl, b, hw⟩ := call_frame hv hc hnext
    exact ⟨_, hw, .call hc hl ⟨b, rfl⟩⟩
  cases e with
  | mount i => cases he
  | umount f b => cases he
  | «open» path gone => exact absurd rfl hc
  | openh d gone => exact absurd rfl hc
  | openf f => exact absurd rfl hc
  | close f => exact absurd rfl hc
  | remount =>
      obtain rfl : remountShfs s = t := by simpa [sysNext] using hnext
      have hstep : remountShfs s = { s with locker := atChunk v.conf 0 } := by
        simp [remountShfs, h.flag, hv]
      rw [hstep]
      exact ⟨v, hv, .remount hen rfl rfl⟩
  | readDone r =>
      obtain rfl : readDone s r = t := by simpa [sysNext] using hnext
      obtain ⟨c, hl⟩ := hen
      cases r with
      | none => exact ⟨v, by simp [readDone, hl, hv], .readError hl (by simp [readDone, hl, hv]) rfl⟩
      | some nchk =>
          exact ⟨v, by simp [readDone, hl, hv], .readChunk hl (by simp [readDone, hl, hv]) rfl⟩
  | locker =>
      have hready : s.lockerReady = true := hen
      have hnext : lockerStep s = .ok t := hnext
      cases hl : s.locker with
      | idle => simp [Sys.lockerReady, hl] at hready
      | read c => simp [Sys.lockerReady, hl] at hready
      | mountLabel i => simp [hl, Locker.remounts] at hr
      | mountLoad i => simp [hl, Locker.remounts] at hr
      | mountClose r => simp [hl, Locker.remounts] at hr
      | umountClose => simp [hl, Locker.remounts] at hr
      | umountAt c => simp [hl, Locker.remounts] at hr
      | umountDown el => simp [hl, Locker.remounts] at hr
      | entry c e nchk =>
          rcases h.entry hv hl with ⟨-, herr⟩ | ⟨w, hfed, hok, -⟩
          · rw [herr] at hnext
            cases hnext
          · rw [hok] at hnext
            cases hnext
            exact ⟨w, rfl, .feed hl rfl hfed⟩
      | down c e nchk el =>
          simp only [lockerStep, hl, hv, Except.ok.injEq] at hnext
          subst hnext
          exact ⟨_, rfl, .take hl rfl ⟨_, rfl⟩⟩
      | locked c e nchk el =>
          simp only [lockerStep, hl, hv, Except.ok.injEq] at hnext
          subst hnext
          exact ⟨_, rfl, .update hl rfl rfl⟩
      | out r =>
          simp only [lockerStep, hl, Except.ok.injEq] at hnext
          subst hnext
          exact ⟨v, hv, .unlock hl rfl rfl⟩

/-- A step without mount and unmount keeps the file system mounted and the mount lock with remounts. -/
theorem mountedSys_step {counted : Prop} {s t : Sys} {v : Vol} {e : SysEvent}
    (h : MountedInv counted s v) (hv : s.vol = some v) (hr : s.locker.remounts = true)
    (hc : counted → Countable s e) (hs : mountedSys.Step s e t) :
    Keeps counted v t ∧ t.locker.remounts = true := by
  have hlock : t.locker.remounts = true := by
    obtain ⟨w, -, hcase⟩ := mountedSys_cases h hv hr hs
    cases hcase with
    | call hc hto hw => rw [hto, hr]
    | remount hfrom hto hw => rw [hto, remounts_atChunk]
    | readError hfrom hto hw => rw [hto]; rfl
    | readChunk hfrom hto hw => rw [hto, remounts_atEntry]
    | feed hfrom hto hw => rw [hto]; rfl
    | take hfrom hto hw => rw [hto]; rfl
    | update hfrom hto hw => rw [hto, remounts_atEntry]
    | unlock hfrom hto hw => rw [hto]; rfl
  refine ⟨(mounted_step h hv hc (Machine.restrict_step.1 hs).1).resolve_right fun hu => ?_, hlock⟩
  rw [hu.locker] at hlock
  exact Bool.false_ne_true hlock

/-- The invariant of a run on a mounted volume. -/
def MountedOn (counted : Prop) (conf : VolConf) (s : Sys) : Prop :=
  ∃ v, s.vol = some v ∧ v.conf = conf ∧ MountedInv counted s v ∧ s.locker.remounts = true

section MountedOn

variable {counted : Prop} {conf : VolConf} {s t : Sys}

theorem mountedOn_step {e : SysEvent} (h : MountedOn counted conf s) (hc : counted → Countable s e)
    (hs : mountedSys.Step s e t) : MountedOn counted conf t := by
  obtain ⟨v, hv, hconf, hinv, hr⟩ := h
  obtain ⟨⟨v', hv', hconf', hinv'⟩, hr'⟩ := mountedSys_step hinv hv hr hc hs
  exact ⟨v', hv', hconf'.trans hconf, hinv', hr'⟩

/-- A volume the loader has built. -/
theorem mountedOn_load {rd : Nat → Option Bytes} {v : Vol} (h : loadVolHtable conf rd = .ok (.ok v)) :
    MountedOn counted conf (Sys.mounted v) := by
  rcases loadVolHtable_cases conf rd with herr | ⟨v', hok, hconf, hload⟩
  · rw [herr] at h
    cases h
  · obtain rfl : v' = v := by simpa [hok] using h
    rw [← hconf] at hload
    exact ⟨v', rfl, hconf, ⟨rfl, rfl, noMark, noMark, .of_loaded hload, rfl, rfl⟩, rfl⟩

/-- However often files are opened, what does not depend on the counters holds in every run. -/
theorem mountedOn_run {es : List SysEvent} (h : MountedOn False conf s) (hrun : mountedSys.Run s es t) :
    MountedOn False conf t :=
  hrun.invariant (fun _ _ _ hi hs => mountedOn_step hi False.elim hs) h

/-- The counters count right in every run that never opens an entry with a full counter. -/
theorem mountedOn_counted {es : List SysEvent} (h : MountedOn True conf s)
    (hrun : (mountedSys.restrict Countable).Run s es t) : MountedOn True conf t := by
  refine hrun.invariant (fun _ _ _ hi hs => ?_) h
  obtain ⟨hs, hc⟩ := Machine.restrict_step.1 hs
  exact mountedOn_step hi (fun _ => hc) hs

end MountedOn

/-! ## Runs up to the return of a remount -/

/-- The event happens while a remount has not returned yet, and that remount reads the volume
`disk`. -/
def WithinRemount (conf : VolConf) (disk : Nat → Bytes) (s : Sys) (e : SysEvent) : Prop :=
  e.staysMounted = true ∧ (∀ c nchk, s.locker = .read c → e = .readDone (some nchk) →
    nchk = disk (conf.htableChunk c)) ∧ ∀ r, s.locker = .out r → e ≠ .locker

/-- A remount, with the opens and closes that interleave with it. -/
def remountSys (conf : VolConf) (disk : Nat → Bytes) : Machine Sys SysEvent Fault :=
  sys.restrict (WithinRemount conf disk)

theorem remountSys_step {conf : VolConf} {disk : Nat → Bytes} {s t : Sys} {e : SysEvent}
    (h : (remountSys conf disk).Step s e t) : mountedSys.Step s e t := by
  obtain ⟨hs, hin⟩ := Machine.restrict_step.1 h
  exact Machine.restrict_step.2 ⟨hs, hin.1⟩

end Minipython.Shfs
