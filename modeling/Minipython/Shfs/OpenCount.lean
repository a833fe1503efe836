/-
# Minipython.Shfs.OpenCount — no table is freed under an open file (shfs.c, shfs_fio.c)

`umount_shfs` asks `shfs_nb_open` and, when forced, waits for the entries on the element list. Both are
right as long as every open file is counted and on that list. Three things break this.

Calls can open a file while there is no table. `shfs_fio_openh` does not ask whether a volume is mounted, and
`shfs_fio_open` asks for `shfs_mounted`, which is also set while `mount_shfs` still reads the table and while a
failing one closes the members. What they find then is what an earlier mount has left behind.

The default entry may be a slot with the zero digest, which is on no list.

`shfs_nb_open` has 32 bits and goes back to zero with the file number `2 ^ 32`.

`SafeCall` excludes the three, and `FilesInv` is what then holds in every state: with a table, the invariant of
the mounted file system, fewer than `2 ^ 32` files open and all of them on the element list or in the hands of
the remount; without one, no file open. `filesInv_run` carries it over a run from the start, and
`open_files_counted` reads the three properties off it.
-/
import Minipython.Shfs.OpenStable
import Minipython.Tools.MkfsArgs
import Mathlib.Algebra.BigOperators.Group.Finset.Piecewise

namespace Minipython.Shfs

open Minipython.Lib Minipython.Tools

/-- The event opens a file. -/
def Sys.opens (s : Sys) (e : SysEvent) : Bool :=
  match openResult s e with
  | some (.ok _) => true
  | _ => false

theorem Sys.opens_of {s : Sys} {e : SysEvent} {el : HtableEl} (h : openResult s e = some (.ok el)) :
    s.opens e = true := by
  unfold Sys.opens
  rw [h]

/-- A digest is looked up, or a path while `shfs_mounted` is set, only while there is a table; the default file
is opened only if the default entry holds a digest; and a file is opened only while the counter of open files
can be counted up. -/
def SafeCall (s : Sys) (e : SysEvent) : Prop :=
  (s.opens e = true → s.shfsNbOpen.toNat + 1 < 2 ^ 32) ∧
    match e with
    | .open path _ => (s.shfsMounted = true → s.vol.isSome = true) ∧
        (isDefaultPath path = true → ∀ v, s.vol = some v → ∀ el, v.defBentry = some el →
          v.bt.isFree el = false)
    | .openh _ _ => s.vol.isSome = true
    | _ => True

instance (s : Sys) (e : SysEvent) : Decidable (SafeCall s e) :=
  match e with
  | .open path _ => inferInstanceAs (Decidable
      ((_ → _) ∧ (_ → _) ∧ (isDefaultPath path = true → ∀ v, s.vol = some v → ∀ el, v.defBentry = some el →
        v.bt.isFree el = false)))
  | .openh .. => inferInstanceAs (Decidable ((_ → _) ∧ _))
  | .mount _ | .remount | .umount .. | .readDone _ | .locker | .openf _ | .close _ =>
      inferInstanceAs (Decidable ((_ → _) ∧ True))

/-- The sum of the reference counters of all slots. -/
def refcountSum (v : Vol) : Nat :=
  ∑ i ∈ Finset.range (v.bt.nbBkts * v.bt.elPerBkt), (v.bentry (v.slot i)).refcount.toNat

/-- Every open file is on the element list, unless the remount is waiting for it. -/
def OpenListed (s : Sys) (v : Vol) : Prop :=
  ∀ el ∈ s.handles, v.InUse el ∨ ∃ c e nchk, s.locker = .down c e nchk el

/-- The places of the holder of the mount lock at which there may be no table. -/
def Locker.atGone : Locker → Bool
  | .idle | .mountLabel _ | .mountLoad _ | .mountClose _ | .umountClose | .out _ => true
  | _ => false

/-- Without a table nothing is open, and the flag is up only while a mount reads the table or, having failed,
closes the members. -/
structure GoneInv (s : Sys) : Prop where
  closed : s.handles = []
  nbOpen : s.shfsNbOpen = 0
  flag : s.shfsMounted = true → (∃ i, s.locker = .mountLoad i) ∨ ∃ r, s.locker = .mountClose r
  load : ∀ i, s.locker = .mountLoad i → s.shfsMounted = true
  locker : s.locker.atGone = true

/-- The invariant with and without a table. -/
def FilesInv (s : Sys) : Prop :=
  match s.vol with
  | some v => MountedInv True s v ∧ s.handles.length < 2 ^ 32 ∧ OpenListed s v
  | none => GoneInv s

/-! ## Without a table -/

section Gone

variable {s t : Sys}

theorem FilesInv.gone (h : FilesInv s) (hv : s.vol = none) : GoneInv s := by
  unfold FilesInv at h
  rwa [hv] at h

theorem GoneInv.files (h : GoneInv s) (hv : s.vol = none) : FilesInv s := by
  unfold FilesInv
  rwa [hv]

/-- A place of the program counter at which the flag is down. -/
theorem GoneInv.down (h : GoneInv s) (hv : s.vol = none) {m : Bool} {l : Locker} (hm : m = false)
    (hload : ∀ i, l ≠ .mountLoad i) (hl : l.atGone = true) :
    FilesInv { s with shfsMounted := m, locker := l } := by
  refine GoneInv.files ⟨h.closed, h.nbOpen, fun hup => ?_, fun i hi => absurd hi (hload i), hl⟩ hv
  exact absurd (hup.symm.trans hm) (by decide)

/-- A failing mount goes on to close the members. -/
theorem GoneInv.fail (h : GoneInv s) (hv : s.vol = none) (ret : Option Errno) :
    FilesInv { s with locker := .mountClose ret } :=
  GoneInv.files ⟨h.closed, h.nbOpen, fun _ => .inr ⟨ret, rfl⟩, fun _ => nofun, rfl⟩ hv

/-- With the flag up only two places are left. -/
theorem GoneInv.flag_down (h : GoneInv s) (hload : ∀ i, s.locker ≠ .mountLoad i)
    (hclose : ∀ r, s.locker ≠ .mountClose r) : s.shfsMounted = false :=
  Bool.eq_false_iff.2 fun hm => by
    rcases h.flag hm with ⟨i, hi⟩ | ⟨r, hr⟩
    · exact hload i hi
    · exact hclose r hr

/-- The first half of a mount. -/
theorem filesInv_mountLabel (h : GoneInv s) (hv : s.vol = none) (hflag : s.shfsMounted = false)
    (i : MountInput) : FilesInv (mountLabel s i) := by
  have hself : ∀ l, ({ s with locker := l } : Sys) = { s with shfsMounted := false, locker := l } := by
    intro l
    rw [← hflag]
  have hload : ∀ i, FilesInv { s with shfsMounted := true, locker := .mountLoad i } := fun i =>
    GoneInv.files ⟨h.closed, h.nbOpen, fun _ => .inl ⟨i, rfl⟩, fun _ _ => rfl, rfl⟩ hv
  cases i with
  | badLabel e =>
      show FilesInv { s with locker := .out (some e) }
      rw [hself]
      exact h.down hv rfl (fun _ he => by cases he) rfl
  | noPool => exact h.fail hv none
  | noDevice => exact hload _
  | badConf e => exact hload _
  | volume g hdr rd alloc => exact hload _

/-- The second half of a mount. -/
theorem filesInv_mountLoad (h : GoneInv s) (hv : s.vol = none) (hflag : s.shfsMounted = true)
    {i : MountInput} (hs : mountLoad s i = .ok t) (hkeep : FilesInv s) : FilesInv t := by
  cases i with
  | noDevice | badLabel _ | noPool =>
      obtain rfl := Except.ok.inj hs
      exact hkeep
  | badConf e =>
      obtain rfl := Except.ok.inj hs
      exact h.fail hv (some e)
  | volume g hdr rd alloc =>
      unfold mountLoad at hs
      dsimp only at hs
      cases hg : loadVolHconf g hdr with
      | error e =>
          rw [hg] at hs
          obtain rfl := Except.ok.inj hs
          exact h.fail hv (some e)
      | ok conf =>
          rw [hg] at hs
          dsimp only at hs
          by_cases ha : alloc = .noTable
          · rw [if_pos ha] at hs
            obtain rfl := Except.ok.inj hs
            exact h.fail hv _
          rw [if_neg ha] at hs
          rcases loadVolHtable_cases conf rd with hl | ⟨v, hl, -⟩
          · rw [hl] at hs
            obtain rfl := Except.ok.inj hs
            exact h.fail hv _
          rw [hl] at hs
          cases alloc with
          | noTable => exact absurd rfl ha
          | noBuffer =>
              obtain rfl := Except.ok.inj hs
              exact h.fail hv _
          | noCache =>
              obtain rfl := Except.ok.inj hs
              exact h.fail hv _
          | ok =>
              obtain rfl := Except.ok.inj hs
              have hmounted : MountedOn True conf (Sys.mounted v) := mountedOn_load hl
              obtain ⟨v', hv', -, hinv, -⟩ := hmounted
              obtain rfl : v = v' := Option.some.inj hv'
              obtain ⟨upd, held, ht, hlock⟩ := hinv.table
              refine ⟨⟨hflag, ?_, upd, held, ?_, hlock⟩, ?_, ?_⟩
              · show (0 : UInt32) = UInt32.ofNat s.handles.length
                rw [h.closed]
                rfl
              · show TableInv True v s.handles upd held
                rw [h.closed]
                exact ht
              · show s.handles.length < 2 ^ 32
                rw [h.closed]
                exact Nat.two_pow_pos 32
              · intro el hel
                have hel : el ∈ s.handles := hel
                rw [h.closed] at hel
                cases hel

/-- The holder of the mount lock runs without a table. -/
theorem filesInv_lockerStep (h : GoneInv s) (hv : s.vol = none) (hready : s.lockerReady = true)
    (hs : lockerStep s = .ok t) : FilesInv t := by
  have hout : ∀ r, FilesInv { s with shfsMounted := false, locker := .out r } := fun r =>
    h.down hv rfl (fun _ he => by cases he) rfl
  have hself : ∀ l, s.shfsMounted = false →
      ({ s with locker := l } : Sys) = { s with shfsMounted := false, locker := l } := fun l hm => by
    rw [← hm]
  have hat := h.locker
  cases hl : s.locker with
  | idle => simp [Sys.lockerReady, hl] at hready
  | mountLabel i =>
      simp only [lockerStep, hl] at hs
      obtain rfl := Except.ok.inj hs
      exact filesInv_mountLabel h hv (h.flag_down (by simp [hl]) (by simp [hl])) i
  | mountLoad i =>
      simp only [lockerStep, hl] at hs
      exact filesInv_mountLoad h hv (h.load i hl) hs (h.files hv)
  | mountClose r =>
      simp only [lockerStep, hl] at hs
      obtain rfl := Except.ok.inj hs
      exact hout r
  | umountClose =>
      simp only [lockerStep, hl] at hs
      obtain rfl := Except.ok.inj hs
      rw [hself _ (h.flag_down (by simp [hl]) (by simp [hl]))]
      exact hout none
  | out r =>
      simp only [lockerStep, hl] at hs
      obtain rfl := Except.ok.inj hs
      rw [hself _ (h.flag_down (by simp [hl]) (by simp [hl]))]
      exact h.down hv rfl (fun _ he => by cases he) rfl
  | _ =>
      rw [hl] at hat
      cases hat

end Gone

/-- A step without a table. -/
theorem filesInv_none {s t : Sys} {e : SysEvent} (hv : s.vol = none) (h : FilesInv s)
    (hsafe : SafeCall s e) (hs : sys.Step s e t) : FilesInv t := by
  have hgone := h.gone hv
  obtain ⟨hen, hnext⟩ := hs
  have hnext : sysNext s e = .ok t := hnext
  -- with the mount lock free the flag is down
  have hidle : s.locker = .idle → s.shfsMounted = false := fun hi =>
    hgone.flag_down (by simp [hi]) (by simp [hi])
  have hout : ∀ r, s.shfsMounted = false → FilesInv { s with locker := .out r } := fun r hm => by
    have hself : ({ s with locker := .out r } : Sys) = { s with shfsMounted := false, locker := .out r } := by
      rw [← hm]
    rw [hself]
    exact hgone.down hv rfl (fun _ he => by cases he) rfl
  cases e with
  | mount i =>
      obtain rfl : mountShfs s i = t := by simpa [sysNext] using hnext
      have hm := hidle hen
      have hlabel : ∀ i, FilesInv { s with locker := .mountLabel i } := fun i => by
        have hself : ({ s with locker := .mountLabel i } : Sys) =
            { s with shfsMounted := false, locker := .mountLabel i } := by rw [← hm]
        rw [hself]
        exact hgone.down hv rfl (fun _ he => by cases he) rfl
      cases i with
      | noDevice => exact hout _ hm
      | _ => simpa only [mountShfs, hm, Bool.false_eq_true, if_false] using hlabel _
  | remount =>
      obtain rfl : { s with locker := .out (some .enodev) } = t := by
        simpa [sysNext, remountShfs, hidle hen] using hnext
      exact hout _ (hidle hen)
  | umount force busy =>
      obtain rfl : { s with locker := .out none } = t := by
        simpa [sysNext, umountShfs, hidle hen] using hnext
      exact hout _ (hidle hen)
  | readDone r =>
      obtain ⟨c, hc⟩ := hen
      have hat := hgone.locker
      rw [hc] at hat
      cases hat
  | locker => exact filesInv_lockerStep hgone hv hen hnext
  | «open» path gone =>
      have hm : s.shfsMounted = false := Bool.eq_false_iff.2 fun hm => by
        have := hsafe.2.1 hm
        simp [hv] at this
      obtain rfl : s = t := by simpa [sysNext, shfsFioOpen, hm] using hnext
      exact h
  | openh d gone =>
      have : s.vol.isSome = true := hsafe.2
      simp [hv] at this
  | openf f =>
      cases f with
      | none =>
          obtain rfl : s = t := by simpa [sysNext, shfsFioOpenf] using hnext
          exact h
      | some el =>
          have := hen.2 el rfl
          simp [hgone.closed] at this
  | close f =>
      have := hen.2
      simp [hgone.closed] at this

/-! ## With a table -/

/-- Only calls change the set of open files. -/
theorem handles_frame {s t : Sys} {e : SysEvent} {v : Vol} (h : MountedInv True s v) (hv : s.vol = some v)
    (hc : e.isCall = false) (hs : sysNext s e = .ok t) :
    t.handles = s.handles := by
  cases e with
  | «open» path gone => cases hc
  | openh d gone => cases hc
  | openf f => cases hc
  | close f => cases hc
  | mount i =>
      obtain rfl : mountShfs s i = t := Except.ok.inj hs
      obtain ⟨r, hr⟩ := mountShfs_mounted h.flag i
      rw [hr]
  | remount =>
      simp only [sysNext, remountShfs, h.flag, hv, Except.ok.injEq] at hs
      rw [← hs]
  | umount force busy =>
      simp only [sysNext, umountShfs, h.flag, hv, Except.ok.injEq] at hs
      rw [← hs]
      split
      · split <;> rfl
      · rfl
  | readDone r =>
      simp only [sysNext, Except.ok.injEq] at hs
      rw [← hs]
      unfold readDone
      split <;> rfl
  | locker =>
      have hs : lockerStep s = .ok t := hs
      obtain ⟨upd, held, -, hlock⟩ := h.table
      cases hl : s.locker with
      | mountLabel _ | mountLoad _ | mountClose _ | umountClose =>
          rw [hl] at hlock
          exact hlock.elim
      | entry c e nchk =>
          simp only [lockerStep, hl, hv] at hs
          cases hr : reloadEntry v c e nchk with
          | error f =>
              rw [hr] at hs
              cases hs
          | ok r =>
              obtain ⟨r, v'⟩ := r
              rw [hr] at hs
              cases r <;> (cases hs; rfl)
      | umountAt cur =>
          cases cur <;> (simp only [lockerStep, hl, hv] at hs; cases hs; rfl)
      | _ =>
          simp only [lockerStep, hl, hv] at hs
          cases hs
          rfl

/-- The files a call leaves open are old ones or on the element list. -/
theorem call_handles {s t : Sys} {v : Vol} {e : SysEvent} (h : MountedInv True s v) (hv : s.vol = some v)
    (hsafe : SafeCall s e) (hc : e.isCall = true) (hs : sys.Step s e t) {el : HtableEl}
    (hel : el ∈ t.handles) : el ∈ s.handles ∨ v.InUse el := by
  obtain ⟨hen, hnext⟩ := hs
  have hnext : sysNext s e = .ok t := hnext
  have hopen : ∀ x, v.InUse x → el ∈ (openBentry s v x).2.handles → el ∈ s.handles ∨ v.InUse el := by
    intro x hx hmem
    unfold openBentry at hmem
    cases ho : shfsFioOpenBentry v x with
    | error e =>
        rw [ho] at hmem
        exact .inl hmem
    | ok v' =>
        rw [ho] at hmem
        rcases List.mem_cons.1 hmem with rfl | hmem
        · exact .inr hx
        · exact .inl hmem
  cases e with
  | mount i => cases hc
  | remount => cases hc
  | umount f b => cases hc
  | readDone r => cases hc
  | locker => cases hc
  | «open» path gone =>
      obtain rfl : (shfsFioOpen s path gone).2 = t := by simpa [sysNext] using hnext
      unfold shfsFioOpen at hel
      simp only [h.flag, hv, Bool.not_true, Bool.false_eq_true, if_false] at hel
      cases hf : shfsFioLookup v path with
      | none =>
          rw [hf] at hel
          exact .inl hel
      | some x =>
          rw [hf] at hel
          refine hopen x ?_ hel
          obtain ⟨upd, held, ht, -⟩ := h.table
          obtain ⟨l, hl⟩ := ht.listed
          have hb : 0 < v.bt.nbBkts := Nat.pos_of_ne_zero fun h0 => by
            simpa [h0] using ht.sized.lt v.conf.nbEntries_pos
          rcases shfsFioLookup_used hl hb hf with ⟨hp, hd⟩ | hu
          · obtain ⟨i, hi, rfl⟩ := ht.dflt x hd
            exact ⟨Htable.slot_inRange (ht.sized.lt hi), hsafe.2.2 hp v hv _ hd⟩
          · exact (hl.mem x).1 hu
  | openh d gone =>
      obtain rfl : (shfsFioOpenh s d gone).2 = t := by simpa [sysNext] using hnext
      unfold shfsFioOpenh at hel
      simp only [hv] at hel
      cases hf : shfsLookupBentryByHash v d with
      | none =>
          rw [hf] at hel
          exact .inl hel
      | some x =>
          rw [hf] at hel
          exact hopen x (h.lookupHash hf) hel
  | openf f =>
      obtain rfl : (shfsFioOpenf s f).2 = t := by simpa [sysNext] using hnext
      cases f with
      | none => exact .inl hel
      | some x =>
          simp only [shfsFioOpenf, h.flag, Bool.not_true, Bool.false_eq_true, if_false] at hel
          rcases List.mem_cons.1 hel with rfl | hmem
          · exact .inl (hen.2 _ rfl)
          · exact .inl hmem
  | close f =>
      obtain rfl : shfsFioClose s f = t := by simpa [sysNext] using hnext
      exact .inl (List.mem_of_mem_erase hel)

/-- Mounting and unmounting calls leave the element list as it is until the table goes. -/
theorem umount_frame {s t : Sys} {v w : Vol} {e : SysEvent} (h : MountedInv True s v)
    (hv : s.vol = some v) (hw : t.vol = some w) (hc : e.isCall = false)
    (hum : ¬(s.locker.remounts = true ∧ e.staysMounted = true)) (hs : sys.Step s e t) :
    w.bt = v.bt ∧ ∀ c i nchk el, s.locker ≠ .down c i nchk el := by
  obtain ⟨hen, hnext⟩ := hs
  have hnext : sysNext s e = .ok t := hnext
  cases e with
  | «open» path gone => cases hc
  | openh d gone => cases hc
  | openf f => cases hc
  | close f => cases hc
  | mount i =>
      obtain rfl : mountShfs s i = t := Except.ok.inj hnext
      obtain ⟨r, hr⟩ := mountShfs_mounted h.flag i
      rw [hr] at hw
      have hi : s.locker = .idle := hen
      obtain rfl : v = w := Option.some.inj (hv.symm.trans hw)
      exact ⟨rfl, by simp [hi]⟩
  | umount force busy =>
      have hi : s.locker = .idle := hen
      simp only [sysNext, umountShfs, h.flag, hv, Except.ok.injEq] at hnext
      refine ⟨?_, by simp [hi]⟩
      by_cases hb : s.shfsNbOpen ≠ 0 ∨ busy = true
      · rw [if_pos hb] at hnext
        have hvt : t.vol = some v := by
          rw [← hnext]
          split <;> rfl
        rw [hvt] at hw
        rw [Option.some.inj hw]
      · rw [if_neg hb] at hnext
        rw [← hnext] at hw
        cases hw
  | remount =>
      have hi : s.locker = .idle := hen
      exact absurd ⟨by rw [hi]; rfl, rfl⟩ hum
  | readDone r =>
      obtain ⟨c, hc⟩ := hen
      exact absurd ⟨by rw [hc]; rfl, rfl⟩ hum
  | locker =>
      have hnext : lockerStep s = .ok t := hnext
      have hno : ¬s.locker.remounts = true := fun hr => hum ⟨hr, rfl⟩
      obtain ⟨upd, held, -, hlock⟩ := h.table
      cases hl : s.locker with
      | idle => simp [hl, Locker.remounts] at hno
      | read c => simp [hl, Locker.remounts] at hno
      | entry c e n => simp [hl, Locker.remounts] at hno
      | down c e n el => simp [hl, Locker.remounts] at hno
      | locked c e n el => simp [hl, Locker.remounts] at hno
      | out r => simp [hl, Locker.remounts] at hno
      | mountLabel _ | mountLoad _ | mountClose _ | umountClose =>
          rw [hl] at hlock
          exact hlock.elim
      | umountAt cur =>
          cases cur with
          | none =>
              simp only [lockerStep, hl, hv, Except.ok.injEq] at hnext
              rw [← hnext] at hw
              cases hw
          | some el =>
              simp only [lockerStep, hl, hv, Except.ok.injEq] at hnext
              rw [← hnext] at hw
              cases hw
              exact ⟨rfl, by simp⟩
      | umountDown el =>
          simp only [lockerStep, hl, hv, Except.ok.injEq] at hnext
          rw [← hnext] at hw
          cases hw
          exact ⟨rfl, by simp⟩

/-- A step of a mounted file system keeps every open file on the element list or in the hands of the
remount. -/
theorem openListed_step {s t : Sys} {v w : Vol} {e : SysEvent} (h : MountedInv True s v)
    (hv : s.vol = some v) (ho : OpenListed s v) (hsafe : SafeCall s e) (hs : sys.Step s e t)
    (hw : t.vol = some w) : OpenListed t w := by
  intro el hel
  by_cases hc : e.isCall = true
  · obtain ⟨hl, b, hb⟩ := call_frame hv hc hs.2
    obtain rfl : { v with bentry := b } = w := Option.some.inj (hb.symm.trans hw)
    rw [hl]
    rcases call_handles h hv hsafe hc hs hel with hmem | hu
    · exact ho el hmem
    · exact .inl hu
  have hc : e.isCall = false := by simpa using hc
  rw [handles_frame h hv hc hs.2] at hel
  by_cases hum : s.locker.remounts = true ∧ e.staysMounted = true
  · obtain ⟨w', hw', hcase⟩ :=
      mountedSys_cases h hv hum.1 (Machine.restrict_step.2 ⟨hs, hum.2⟩)
    obtain rfl : w' = w := Option.some.inj (hw'.symm.trans hw)
    have hstay : (∀ c i nchk, s.locker ≠ .down c i nchk el) → v.InUse el := fun hne =>
      (ho el hel).resolve_right fun ⟨c, i, nchk, hl⟩ => hne c i nchk hl
    cases hcase with
    | call hc' hto hw => rw [hc] at hc'; cases hc'
    | remount hfrom hto hw => subst hw; exact .inl (hstay (by simp [hfrom]))
    | readError hfrom hto hw => subst hw; exact .inl (hstay (by simp [hfrom]))
    | readChunk hfrom hto hw => subst hw; exact .inl (hstay (by simp [hfrom]))
    | unlock hfrom hto hw => subst hw; exact .inl (hstay (by simp [hfrom]))
    | update hfrom hto hw =>
        subst hw
        left
        rw [Vol.InUse, reloadUpdate_bt]
        exact hstay (by simp [hfrom])
    | @feed c i nchk hfrom hto hw =>
        -- a fed slot may drop from the list while it is open; then the remount waits for it
        by_cases hx : el = v.slot (c * v.conf.htableNbEntriesPerChunk + i)
        · right
          exact ⟨c, i, nchk, by rw [hto, hx]⟩
        · left
          have hu := hstay (by simp [hfrom])
          refine ⟨(hw.geom.inRange el).2 hu.1, ?_⟩
          rw [Htable.isFree, hw.hash, Function.update_of_ne hx, hw.geom.2.2]
          exact hu.2
    | @take c i nchk x hfrom hto hw =>
        obtain ⟨b, rfl⟩ := hw
        -- the semaphore of an open entry is down, so the remount has not got it
        refine (ho el hel).imp id fun ⟨c', i', nchk', hl⟩ => ?_
        rw [hfrom] at hl
        cases hl
        obtain ⟨upd, held, ht, -⟩ := h.table
        have hready : 0 < (v.bentry el).updatelock := by
          have : s.lockerReady = true := hs.1
          simpa [Sys.lockerReady, hfrom, hv] using this
        have h0 := ((ht.el el).of_updatelock_pos trivial hready).2
        have := List.count_pos_iff.2 hel
        omega
  · obtain ⟨hbt, hne⟩ := umount_frame h hv hw hc hum hs
    left
    rw [Vol.InUse, hbt]
    exact (ho el hel).resolve_right fun ⟨c, i, nchk, hl⟩ => hne c i nchk el hl

/-- The table goes only when no file is open. -/
theorem unmounts_closed {s t : Sys} {v : Vol} (h : MountedInv True s v) (hlt : s.handles.length < 2 ^ 32)
    (ho : OpenListed s v) (hu : Unmounts s t) : s.handles = [] := by
  rcases hu.cause with ⟨h0, -⟩ | hl
  · rw [h.nbOpen, Word.count_ofNat_eq_zero hlt] at h0
    exact List.eq_nil_of_length_eq_zero h0
  · obtain ⟨upd, held, ht, hlock⟩ := h.table
    rw [hl] at hlock
    obtain ⟨done, rest, hlist, hcur, rfl, rfl⟩ := hlock
    obtain rfl : rest = [] := by
      cases rest with
      | nil => rfl
      | cons x xs => cases hcur
    refine List.eq_nil_iff_forall_not_mem.2 fun el hel => ?_
    -- an open file is on the list, all of which is locked
    have hin : v.InUse el := (ho el hel).resolve_right fun ⟨c, i, nchk, hd⟩ => by
      rw [hl] at hd
      cases hd
    have hdone : el ∈ done := by simpa using (hlist.mem el).2 hin
    have h0 := (ht.el el).closed trivial hdone
    have := List.count_pos_iff.2 hel
    omega

/-! ## Counting -/

section Counting

variable {s t : Sys} {v : Vol} {e : SysEvent}

/-- What the two counters say while fewer than `2 ^ 32` files are open. -/
theorem MountedInv.nbOpen_toNat (h : MountedInv True s v) (hlt : s.handles.length < 2 ^ 32) :
    s.shfsNbOpen.toNat = s.handles.length := by
  rw [h.nbOpen, Word.count_ofNat hlt]

/-- While the number of open files can be counted up, so can the counter of every entry. -/
theorem MountedInv.countable (h : MountedInv True s v) (hv : s.vol = some v)
    (hlt : s.handles.length < 2 ^ 32) (hsafe : SafeCall s e) : Countable s e := by
  intro el hok w hw
  obtain rfl : v = w := Option.some.inj (hv.symm.trans hw)
  obtain ⟨upd, held, ht, -⟩ := h.table
  have hroom := hsafe.1 (Sys.opens_of hok)
  rw [h.nbOpen_toNat hlt] at hroom
  rw [(ht.el el).refcount_toNat trivial]
  have := List.count_le_length (a := el) (l := s.handles)
  omega

/-- A step opens at most one file. -/
theorem handles_le (hs : sysNext s e = .ok t) (h : MountedInv True s v) (hv : s.vol = some v) :
    t.handles.length ≤ s.handles.length + if s.opens e then 1 else 0 := by
  have hopen : ∀ x, (openBentry s v x).2.handles.length ≤
      s.handles.length + if (openBentry s v x).1.isOk then 1 else 0 := by
    intro x
    unfold openBentry
    cases shfsFioOpenBentry v x with
    | error e => exact Nat.le_refl _
    | ok v' => exact Nat.le_refl _
  have hres : ∀ r : Except Errno HtableEl, openResult s e = some r → s.opens e = r.isOk := by
    intro r hr
    unfold Sys.opens
    rw [hr]
    cases r <;> rfl
  by_cases hc : e.isCall = true
  · cases e with
    | mount i => cases hc
    | remount => cases hc
    | umount f b => cases hc
    | readDone r => cases hc
    | locker => cases hc
    | «open» path gone =>
        obtain rfl : (shfsFioOpen s path gone).2 = t := Except.ok.inj hs
        rw [hres _ rfl]
        unfold shfsFioOpen
        simp only [h.flag, hv, Bool.not_true, Bool.false_eq_true, if_false]
        cases shfsFioLookup v path with
        | none => exact Nat.le_refl _
        | some x => exact hopen x
    | openh d gone =>
        obtain rfl : (shfsFioOpenh s d gone).2 = t := Except.ok.inj hs
        rw [hres _ rfl]
        unfold shfsFioOpenh
        simp only [hv]
        cases shfsLookupBentryByHash v d with
        | none => exact Nat.le_refl _
        | some x => exact hopen x
    | openf f =>
        obtain rfl : (shfsFioOpenf s f).2 = t := Except.ok.inj hs
        rw [hres _ rfl]
        cases f with
        | none => exact Nat.le_refl _
        | some x =>
            simp only [shfsFioOpenf, h.flag, Bool.not_true, Bool.false_eq_true, if_false]
            exact Nat.le_refl _
    | close f =>
        obtain rfl : shfsFioClose s f = t := Except.ok.inj hs
        exact Nat.le_trans (List.length_erase_le) (Nat.le_add_right _ _)
  · rw [handles_frame h hv (by simpa using hc) hs]
    exact Nat.le_add_right _ _

end Counting

/-! ## Runs -/

theorem filesInv_step {s t : Sys} {e : SysEvent} (h : FilesInv s)
    (hs : (sys.restrict SafeCall).Step s e t) : FilesInv t := by
  obtain ⟨hstep, hsafe⟩ := Machine.restrict_step.1 hs
  cases hv : s.vol with
  | none => exact filesInv_none hv h hsafe hstep
  | some v =>
      simp only [FilesInv, hv] at h
      obtain ⟨hinv, hlt, ho⟩ := h
      have hcount : True → Countable s e := fun _ => hinv.countable hv hlt hsafe
      rcases mounted_step hinv hv hcount hstep with ⟨w, hw, -, hinv'⟩ | hu
      · simp only [FilesInv, hw]
        refine ⟨hinv', ?_, openListed_step hinv hv ho hsafe hstep hw⟩
        have hle := handles_le hstep.2 hinv hv
        split at hle
        · rename_i hopens
          have hroom := hsafe.1 hopens
          rw [hinv.nbOpen_toNat hlt] at hroom
          omega
        · omega
      · have hclosed := unmounts_closed hinv hlt ho hu
        refine GoneInv.files ⟨by rw [hu.handles, hclosed], ?_, fun hm => ?_, fun i hi => ?_, ?_⟩ hu.vol
        · rw [hu.nbOpen, hinv.nbOpen, hclosed]
          rfl
        · rw [hu.flag] at hm
          cases hm
        · rw [hu.locker] at hi
          cases hi
        · rw [hu.locker]
          rfl

theorem filesInv_run {es : List SysEvent} {s : Sys} (h : (sys.restrict SafeCall).Run Sys.init es s) :
    FilesInv s := by
  refine h.invariant (fun _ _ _ hI hs => filesInv_step hI hs) ?_
  exact ⟨rfl, rfl, (fun hm => by cases hm), (fun _ hi => by cases hi), rfl⟩

/-- The counters of the slots count the open files. -/
theorem MountedInv.refcountSum_eq {s : Sys} {v : Vol} (h : MountedInv True s v) :
    s.handles.length = refcountSum v := by
  obtain ⟨upd, held, ht, -⟩ := h.table
  have hin : ∀ el ∈ s.handles, ∃ i, i < v.bt.nbBkts * v.bt.elPerBkt ∧ v.slot i = el := by
    intro el hel
    obtain ⟨i, hi, hs⟩ := (ht.el el).entry (List.count_pos_iff.2 hel)
    exact ⟨i, ht.sized.lt hi, hs⟩
  unfold refcountSum
  simp only [fun i => (ht.el (v.slot i)).refcount_toNat trivial]
  generalize s.handles = hs at hin
  induction hs with
  | nil => simp
  | cons x xs ih =>
      obtain ⟨j, hj, rfl⟩ := hin x (by simp)
      have hcount : ∀ i, (v.slot j :: xs).count (v.slot i) = xs.count (v.slot i) +
          if j = i then 1 else 0 := by
        intro i
        rw [List.count_cons]
        by_cases hij : j = i
        · simp [hij]
        · have hne : v.slot j ≠ v.slot i := fun he => hij (Htable.slot_injective he)
          simp [hij, hne]
      rw [List.length_cons, ih fun el hel => hin el (List.mem_cons_of_mem _ hel)]
      simp only [hcount, Finset.sum_add_distrib, Finset.sum_ite_eq, Finset.mem_range.2 hj, if_true]

/-- In every run of safe calls: `shfs_nb_open` is the sum of the reference counters, no open succeeds while
there is no table, and the table goes only when no entry is open. Three things are said of every state, the
counter with a table and without one, and of every step: an open while there is no table fails, and after a
step that frees the table no entry of it was open. -/
theorem open_files_counted {es : List SysEvent} {s : Sys}
    (hrun : (sys.restrict SafeCall).Run Sys.init es s) :
    (∀ v, s.vol = some v → s.shfsNbOpen.toNat = refcountSum v) ∧
      (s.vol = none → s.shfsNbOpen = 0 ∧ s.handles = []) ∧
      (∀ e t, (sys.restrict SafeCall).Step s e t → s.vol = none →
        ∀ el, openResult s e ≠ some (.ok el)) ∧
      ∀ e t, (sys.restrict SafeCall).Step s e t → t.vol = none →
        ∀ v, s.vol = some v → ∀ el, (v.bentry el).refcount = 0 := by
  have hinv := filesInv_run hrun
  refine ⟨fun v hv => ?_, fun hv => ?_, fun e t hs hv el hok => ?_, fun e t hs ht v hv el => ?_⟩
  · simp only [FilesInv, hv] at hinv
    rw [hinv.1.nbOpen_toNat hinv.2.1]
    exact hinv.1.refcountSum_eq
  · exact ⟨(hinv.gone hv).nbOpen, (hinv.gone hv).closed⟩
  · have hgone := hinv.gone hv
    obtain ⟨⟨hen, -⟩, hsafe⟩ := Machine.restrict_step.1 hs
    cases e with
    | «open» path gone =>
        have hm : s.shfsMounted = false := Bool.eq_false_iff.2 fun hm => by
          have := hsafe.2.1 hm
          simp [hv] at this
        simp [openResult, shfsFioOpen, hm] at hok
    | openh d gone =>
        have : s.vol.isSome = true := hsafe.2
        simp [hv] at this
    | openf f =>
        cases f with
        | none => simp [openResult, shfsFioOpenf] at hok
        | some x =>
            have := hen.2 x rfl
            simp [hgone.closed] at this
    | mount i => cases hok
    | remount => cases hok
    | umount f b => cases hok
    | readDone r => cases hok
    | locker => cases hok
    | close f => cases hok
  · simp only [FilesInv, hv] at hinv
    obtain ⟨hm, hlt, ho⟩ := hinv
    obtain ⟨hstep, hsafe⟩ := Machine.restrict_step.1 hs
    rcases mounted_step hm hv (fun _ => hm.countable hv hlt hsafe) hstep with ⟨w, hw, -⟩ | hu
    · rw [ht] at hw
      cases hw
    · obtain ⟨upd, held, htab, -⟩ := hm.table
      rw [(htab.el el).refcount_eq_zero trivial, unmounts_closed hm hlt ho hu]
      rfl

/-! ## A file across an unmount -/

/-- Mounting the one-entry volume whose table is the given chunk. -/
def mountTiny (chk : Bytes) : List SysEvent :=
  [.mount (.volume tinyArgs.geom tinyArgs.hdrConfig (fun _ => some chk) .ok), .locker, .locker, .locker]

/-- The call that holds the mount lock is about to return `ret`. -/
def Sys.returns (s : Sys) (ret : Option Errno) : Bool :=
  match s.locker with
  | .out r => r == ret
  | _ => false

/-- The unmount is refused while the default file is open, and goes through when it is closed. -/
theorem open_files_counted_mounted : ∃ s v t, (sys.restrict SafeCall).Run Sys.init
      (mountTiny (defaultChunk 1) ++ [.open [] none, .umount false false, .locker]) s ∧
    s.vol = some v ∧ s.handles = [(0, 0)] ∧ refcountSum v = 1 ∧
    (sys.restrict SafeCall).Run s [.close (0, 0), .umount false false, .locker] t ∧ t.vol = none ∧
    t.shfsNbOpen = 0 := by
  have hexec : ((sys.restrict SafeCall).exec Sys.init
      (mountTiny (defaultChunk 1) ++ [.open [] none, .umount false false, .locker])).any
      (fun s => decide (s.handles = [(0, 0)] ∧ s.shfsNbOpen = 1) && s.vol.isSome &&
        ((sys.restrict SafeCall).exec s [.close (0, 0), .umount false false, .locker]).any fun t =>
          t.vol.isNone) = true := by decide +kernel
  obtain ⟨s, hrun, hs⟩ := Machine.Run.of_exec_any hexec
  simp only [Bool.and_eq_true, decide_eq_true_eq] at hs
  obtain ⟨⟨⟨hh, hn⟩, hsome⟩, ht⟩ := hs
  obtain ⟨v, hv⟩ := Option.isSome_iff_exists.1 hsome
  obtain ⟨t, hrun', hnone⟩ := Machine.Run.of_exec_any ht
  have hgone := Option.isNone_iff_eq_none.1 hnone
  refine ⟨s, v, t, hrun, hv, hh, ?_, hrun', hgone, ?_⟩
  · rw [← (open_files_counted hrun).1 v hv, hn]
    rfl
  · exact ((open_files_counted (hrun.append hrun')).2.1 hgone).1

/-- Mount, open the default file, unmount with force: the default entry has no digest, so that it is not on
the element list. The unmount frees the table under the open file and returns 0. -/
theorem umount_frees_open_entry : ∃ s v t,
    sys.Run Sys.init (mountTiny (defaultChunk 0) ++ [.open [] none, .umount true false]) s ∧
    s.vol = some v ∧ (v.bentry (0, 0)).refcount = 1 ∧ (0, 0) ∈ s.handles ∧
    sys.Run s [.locker, .locker] t ∧ t.vol = none ∧ t.returns none = true ∧ (0, 0) ∈ t.handles := by
  have hexec : (sys.exec Sys.init (mountTiny (defaultChunk 0) ++ [.open [] none, .umount true false])).any
      (fun s => (s.vol.any fun v => (v.bentry (0, 0)).refcount == 1) && decide ((0, 0) ∈ s.handles) &&
        (sys.exec s [.locker, .locker]).any fun t =>
          decide (t.vol.isNone = true ∧ t.returns none = true ∧ (0, 0) ∈ t.handles)) = true := by
    decide +kernel
  obtain ⟨s, hrun, hs⟩ := Machine.Run.of_exec_any hexec
  simp only [Bool.and_eq_true, decide_eq_true_eq] at hs
  obtain ⟨⟨hopen, hh⟩, ht⟩ := hs
  obtain ⟨v, hv, hr⟩ := (Option.any_eq_true ..).1 hopen
  obtain ⟨t, hrun', hend⟩ := Machine.Run.of_exec_any ht
  obtain ⟨hgone, hret, hh'⟩ := of_decide_eq_true hend
  exact ⟨s, v, t, hrun, hv, eq_of_beq hr, hh, hrun', Option.isNone_iff_eq_none.1 hgone, hret, hh'⟩

end Minipython.Shfs
