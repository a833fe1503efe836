/-
# Minipython.Tools.Sessions — what sessions keep (shfs_admin.c)

`Good V v d` is the invariant of a mounted volume: the table in memory is in order, a chunk of it that
is not marked is as it is on disk, every file lies behind the tables, and the allocator list guards
them. `Effect.good` is the step for a token, `Mounted.good` the one for a mount, and `DiskOk` is what an
unmount leaves, finished or not.

A mount registers a range for every slot in use, also for links, which have none. `LinksBehind` says
that none of these lies in front of the last table or wraps; on a volume without links it is true.

`Sys.Ok` is the invariant of a run: `Good` with a session, `DiskOk` without one. A session may end in the
middle, after any token, and be followed by another mount; a failing one leaves the disk as it is.
`step_frame` says which chunks a step may write to at all.
-/
import Minipython.Tools.Umount
import Minipython.Tools.Undo

namespace Minipython.Tools.Admin

open Minipython.Lib
open Minipython.Shfs
open Htable

/-! ## Entries in memory and on disk -/

/-- The entry number `i` in the chunk cache. -/
def Volume.memEntry (V : Volume) (v : VolInfo) (i : Nat) : Hentry :=
  tableEntry V.conf v.htableChunkCache i

/-- The members hold the same bytes at the chunks of the label and the tables. -/
def SameTables (V : Volume) (d d' : Members) : Prop := ∀ c < V.tablesEnd, SameAt V.g d' d c

section Entries

variable {V : Volume} {v : VolInfo} {d d' : Members} {i j : Nat}

/-- The bytes of an entry lie in its chunk. -/
theorem Volume.entry_byte (V : Volume) (i : Nat) {k : Nat} (hk : k < sizeofHentry) :
    shfsHtableEntryOffset i V.conf.htableNbEntriesPerChunk + k < V.chunksize := by
  have hend := V.entry_end i
  unfold sizeofHentry at hk
  unfold shfsHentrySize at hend
  omega

theorem SameTables.refl (V : Volume) (d : Members) : SameTables V d d := fun _ _ _ _ => rfl

theorem SameTables.chunk (h : SameTables V d d') {c k : Nat} (hc : c < V.htableLen)
    (hk : k < V.chunksize) :
    chunkAt V.g d' (V.conf.htableChunk c) k = chunkAt V.g d (V.conf.htableChunk c) k :=
  h _ (V.htableChunk_lt hc) k (by rw [V.chunkLen_eq]; exact hk)

theorem SameTables.entry (h : SameTables V d d') (hi : i < V.conf.htableNbEntries) :
    SameHentry (V.diskEntry d' i) (V.diskEntry d i) := fun _ hk =>
  h.chunk (V.chunkNo_lt hi) (V.entry_byte i hk)

/-- What `addHentry` does to the entries in the chunk cache. -/
theorem memEntry_addHentry (ht : Table V v) (f : Hentry → Hentry) {w : VolInfo}
    (hc : w.htableChunkCache = v.htableChunkCache) (hb : w.bentry = v.bentry)
    (hi : i < V.conf.htableNbEntries) (hj : j < V.conf.htableNbEntries) :
    SameHentry (V.memEntry (addHentry w (v.slot i) f) j)
      (if j = i then f (V.memEntry v i) else V.memEntry v j) := by
  -- only the chunk cache and the bentries matter
  have hw : V.memEntry (addHentry w (v.slot i) f) j = V.memEntry (addHentry v (v.slot i) f) j := by
    unfold addHentry VolInfo.setHentry VolInfo.markModified VolInfo.hentry Volume.memEntry
    rw [hc, hb]
  rw [hw]
  have hplace : ∀ x < V.conf.htableNbEntries,
      (addHentry v (v.slot i) f).hentry (v.slot x) = V.memEntry (addHentry v (v.slot i) f) x :=
    fun x hx => by
      unfold VolInfo.hentry Volume.memEntry tableEntry
      rw [addHentry_bentry, ht.place x hx]
  have hold : ∀ x < V.conf.htableNbEntries, v.hentry (v.slot x) = V.memEntry v x :=
    fun x hx => ht.hentry_eq hx
  split
  · rename_i hji
    subst hji
    rw [← hplace j hj, ← hold j hj]
    exact addHentry_self
  · rename_i hji
    rw [← hplace j hj, ← hold j hj]
    exact addHentry_other ht hi hj hji

end Entries

/-! ## Files -/

/-- The container of a file: it begins in the volume, behind the tables. -/
structure FileOk (V : Volume) (e : Hentry) : Prop where
  behind : V.tablesEnd ≤ e.chunk
  inside : e.chunk < V.volsize
  offset : e.offset = 0
  len : e.len < 2 ^ 63

/-- An entry in use that is no link is a file. -/
def EntryOk (V : Volume) (e : Hentry) : Prop :=
  hashIsZero e V.hlen = false → e.isLink = false → FileOk V e

theorem EntryOk.congr {V : Volume} {e e' : Hentry} (h : EntryOk V e) (hs : SameHentry e' e) :
    EntryOk V e' := by
  intro hz hl
  rw [hashIsZero_congr (hs.sameHash V.hlen_le)] at hz
  rw [hs.isLink] at hl
  obtain ⟨hc, ho, hn⟩ := hs.attrs
  have hf := h hz hl
  exact ⟨by rw [hc]; exact hf.behind, by rw [hc]; exact hf.inside, by rw [ho]; exact hf.offset,
    by rw [hn]; exact hf.len⟩

/-- Every entry on disk is in order. -/
def DiskOk (V : Volume) (d : Members) : Prop := ∀ i < V.conf.htableNbEntries, EntryOk V (V.diskEntry d i)

/-- The ranges that a mount registers for links begin behind the last table and do not wrap. -/
def LinksBehind (V : Volume) (d : Members) : Prop :=
  ∀ i < V.conf.htableNbEntries, hashIsZero (V.diskEntry d i) V.hlen = false →
    (V.diskEntry d i).isLink = true → V.lastTable ≤ (V.diskEntry d i).chunk ∧
      (V.diskEntry d i).chunk + containerLen V (V.diskEntry d i) < u64Size

/-! ## The invariant -/

/-- A chunk of the table that is not marked is as it is on disk. -/
def Coherent (V : Volume) (v : VolInfo) (d : Members) : Prop :=
  ∀ c < V.htableLen, v.htableChunkCacheState c = false → ∀ k < V.chunksize,
    v.htableChunkCache c k = chunkAt V.g d (V.conf.htableChunk c) k

/-- A mounted volume. -/
structure Good (V : Volume) (v : VolInfo) (d : Members) : Prop where
  table : Table V v
  coherent : Coherent V v d
  files : ∀ i < V.conf.htableNbEntries, EntryOk V (V.memEntry v i)
  guarded : Guarded V v.al

/-- The chunks of `w` that are not marked were not marked before and are the same. -/
def Marks (v w : VolInfo) : Prop := ∀ c, w.htableChunkCacheState c = false →
  v.htableChunkCacheState c = false ∧ w.htableChunkCache c = v.htableChunkCache c

theorem Marks.refl (v : VolInfo) : Marks v v := fun _ hc => ⟨hc, rfl⟩

theorem Marks.trans {u v w : VolInfo} (h : Marks u v) (h' : Marks v w) : Marks u w := fun c hc => by
  obtain ⟨hv, heq⟩ := h' c hc
  obtain ⟨hu, heq'⟩ := h c hv
  exact ⟨hu, heq.trans heq'⟩

/-- `addHentry` marks what it changes. -/
theorem marks_addHentry {v w : VolInfo} {el : HtableEl} {f : Hentry → Hentry}
    (hcache : w.htableChunkCache = v.htableChunkCache)
    (hstate : w.htableChunkCacheState = v.htableChunkCacheState) : Marks v (addHentry w el f) := by
  intro c hc
  rw [addHentry_state] at hc
  by_cases heq : c = (w.bentry el).hentryHtchunk
  · rw [heq, Function.update_self] at hc
    cases hc
  · rw [Function.update_of_ne heq] at hc
    rw [addHentry_chunk heq, hcache, ← hstate]
    exact ⟨hc, rfl⟩

theorem Coherent.step {V : Volume} {v w : VolInfo} {d d' : Members} (h : Coherent V v d)
    (hm : Marks v w) (hd : SameTables V d d') : Coherent V w d' := by
  intro c hc hstate k hk
  obtain ⟨hold, heq⟩ := hm c hstate
  rw [heq, hd.chunk hc hk]
  exact h c hc hold k hk

/-! ## A token -/

section Token

variable {V : Volume} {lib : MhashLib} {v : VolInfo} {s : Session} {a : Action} {r : Int × Session}

/-- A change of one entry keeps the files in order if the changed entry is. -/
theorem files_addHentry {f : Hentry → Hentry} {i : Nat} {w : VolInfo} (ht : Table V v)
    (hc : w.htableChunkCache = v.htableChunkCache) (hb : w.bentry = v.bentry)
    (hi : i < V.conf.htableNbEntries)
    (hfiles : ∀ j < V.conf.htableNbEntries, EntryOk V (V.memEntry v j))
    (hf : EntryOk V (f (V.memEntry v i))) :
    ∀ j < V.conf.htableNbEntries, EntryOk V (V.memEntry (addHentry w (v.slot i) f) j) := by
  intro j hj
  have hmem := memEntry_addHentry ht f hc hb hi hj
  split at hmem
  · exact hf.congr hmem
  · exact (hfiles j hj).congr hmem

/-- What holds of all bytes can be tested on all bytes. -/
theorem uint8_all {P : UInt8 → Prop} (h : ∀ n : Fin 256, P (UInt8.ofNat n.val)) (x : UInt8) : P x := by
  have hx := h ⟨x.toNat, x.toNat_lt⟩
  rwa [UInt8.ofNat_toNat] at hx

/-- Setting and clearing the default flag keeps the link flag. -/
theorem default_keeps_link (x : UInt8) :
    (x ||| shfsEflagDefault) &&& shfsEflagLink = x &&& shfsEflagLink ∧
      (x &&& ~~~shfsEflagDefault) &&& shfsEflagLink = x &&& shfsEflagLink := by
  apply uint8_all (P := fun x => (x ||| shfsEflagDefault) &&& shfsEflagLink = x &&& shfsEflagLink ∧
    (x &&& ~~~shfsEflagDefault) &&& shfsEflagLink = x &&& shfsEflagLink)
  decide +kernel

theorem mapFlags_flags (f : UInt8 → UInt8) (e : Hentry) : (mapFlags f e).flags = f e.flags := by
  show UInt8.ofNat ((f e.flags).toNat / 256 ^ 0) = _
  rw [Nat.pow_zero, Nat.div_one, UInt8.ofNat_toNat]

/-- A change of the flags that keeps the link flag keeps the entry in order. -/
theorem EntryOk.mapFlags {e : Hentry} (h : EntryOk V e) {f : UInt8 → UInt8}
    (hf : ∀ x, f x &&& shfsEflagLink = x &&& shfsEflagLink) : EntryOk V (mapFlags f e) := by
  intro hz hl
  rw [hashIsZero_congr (mapFlags_hash f e)] at hz
  have hlink : (Admin.mapFlags f e).isLink = e.isLink := by
    unfold Hentry.isLink
    rw [mapFlags_flags, hf]
  rw [hlink] at hl
  obtain ⟨hb, hi, ho, hn⟩ := h hz hl
  have hword : ∀ off, off + 8 ≤ 180 → Bytes.le (Admin.mapFlags f e) off 8 = Bytes.le e off 8 :=
    fun off hoff => Bytes.le_putLe_disjoint (.inl hoff)
  refine ⟨?_, ?_, ?_, ?_⟩
  · show V.tablesEnd ≤ Bytes.le _ 64 8
    rw [hword 64 (by omega)]
    exact hb
  · show Bytes.le _ 64 8 < V.volsize
    rw [hword 64 (by omega)]
    exact hi
  · show Bytes.le _ 72 8 = 0
    rw [hword 72 (by omega)]
    exact ho
  · show Bytes.le _ 80 8 < 2 ^ 63
    rw [hword 80 (by omega)]
    exact hn

/-- A new file entry is in order. -/
theorem entryOk_file {e : Hentry} {fhash : Hash512} {cchk now : Nat} {env : AddEnv} {j : Token}
    (hb : V.tablesEnd ≤ cchk) (hi : cchk < V.volsize) :
    EntryOk V (fileHentry e V.hlen fhash cchk env.stSize now j) := by
  intro _ _
  have hsize := env.stSize_lt
  have hv := V.volsize_lt
  obtain ⟨hc, ho, hn⟩ := @fileHentry_container e V.hlen cchk env.stSize now fhash j
    (by omega) (by simp only [u64Size]; omega)
  exact ⟨by rw [hc]; exact hb, by rw [hc]; exact hi, ho, by rw [hn]; exact hsize⟩

theorem entryOk_link {e : Hentry} {fhash : Hash512} {rhost : Bytes} {u : HttpParserUrl} {now : Nat}
    {j : Token} : EntryOk V (linkHentry e V.hlen fhash rhost u now j) := by
  intro _ hl
  unfold Hentry.isLink at hl
  rw [linkHentry_flags] at hl
  cases hl

theorem entryOk_clear (e : Hentry) : EntryOk V (hashClear e V.hlen) := by
  intro hz _
  rw [hashIsZero_hashClear] at hz
  cases hz

theorem files_clearDefault (ht : Table V v)
    (hfiles : ∀ i < V.conf.htableNbEntries, EntryOk V (V.memEntry v i)) :
    ∀ i < V.conf.htableNbEntries, EntryOk V (V.memEntry (clearDefault v) i) := by
  unfold clearDefault
  cases hdef : v.defBentry with
  | none => exact hfiles
  | some el =>
      obtain ⟨i, hi, rfl⟩ := ht.exists_slot (ht.dflt el hdef)
      exact files_addHentry ht rfl rfl hi hfiles ((hfiles i hi).mapFlags fun x => (default_keeps_link x).2)

theorem marks_clearDefault (v : VolInfo) : Marks v (clearDefault v) := by
  unfold clearDefault
  split
  · exact Marks.refl v
  · exact marks_addHentry rfl rfl

/-- The allocator list that guards the tables still does with a new container. -/
theorem Good.reserve (h : Good V s.vol s.disk) {env : AddEnv} {cchk : Nat} (hres : Reserves V env s cchk) :
    Guarded V (reserve V env cchk s).vol.al ∧ V.tablesEnd ≤ cchk ∧ cchk < V.volsize := by
  have hle := csize_le V env
  obtain ⟨hb, hi⟩ := h.guarded.container hle hres.found
  have hv := V.volsize_le
  refine ⟨h.guarded.register env.regMem (Nat.le_trans V.lastTable_le hb) ?_ hle, hb, hi⟩
  simp only [u64Size]
  omega

theorem Guarded.release {t : Session} {cchk csize : Nat} (h : Guarded V t.vol.al)
    (hb : V.tablesEnd ≤ cchk) : Guarded V (releaseContainer t cchk csize).vol.al := by
  unfold releaseContainer
  cases hal : shfsAlistUnregister t.vol.al cchk csize with
  | none => exact h
  | some al => exact h.unregister hb hal

/-- Every action keeps what writes behind the tables keep. -/
theorem Effect.frame {R : Members → Members → Prop} (hR : Frame V.g (V.tablesEnd ≤ ·) R)
    (he : Effect V lib s a r) (h : Good V s.vol s.disk) : R s.disk r.2.disk := by
  have hcopy : ∀ {env : AddEnv} {cchk : Nat} {buf : Bytes} {ret : Int} {d : Members},
      Reserves V env s cchk → Copied V env cchk buf s ret d → R s.disk d := by
    intro env cchk buf ret d hres hcopied
    obtain ⟨-, hb, hi⟩ := h.reserve hres
    exact hcopied.frame (hR.mono fun c hc => Nat.le_trans hb hc) (V.fits cchk hi)
  cases he with
  | @undone j env cchk ret cancel hres _ _ =>
      obtain ⟨al, hal⟩ := releaseContainer_parts { reserve V env cchk s with cancel := cancel } cchk
        (env.csize V)
      simp only [hal]
      exact hR.refl _
  | @copyFailed j env cchk fhash buf l el bt ret d cancel hres _ _ hc _ =>
      obtain ⟨al, hal⟩ := releaseContainer_parts ⟨inserted V j env cchk fhash el bt s, d, cancel⟩ cchk
        (env.csize V)
      simp only [hal]
      exact hcopy hres hc
  | added hres _ _ hc _ => exact hcopy hres hc
  | same _ => exact hR.refl _
  | linked _ _ _ _ => exact hR.refl _
  | removedLink _ _ _ => exact hR.refl _
  | removed _ _ _ _ => exact hR.refl _
  | defaultCleared _ => exact hR.refl _
  | defaultSet _ _ => exact hR.refl _

/-- Every action writes behind the tables only. -/
theorem Effect.sameTables (he : Effect V lib s a r) (h : Good V s.vol s.disk) :
    SameTables V s.disk r.2.disk := by
  intro c hc
  refine he.frame (Frame.mono (sameAt_frame (V.fits_of_lt_tablesEnd hc)) ?_) h
  intro c' hle
  omega

/-- Every action marks what it changes. -/
theorem Effect.marks (he : Effect V lib s a r) : Marks s.vol r.2.vol := by
  cases he with
  | same _ => exact Marks.refl _
  | @undone j env cchk ret cancel _ _ _ =>
      obtain ⟨al, hal⟩ := releaseContainer_parts { reserve V env cchk s with cancel := cancel } cchk
        (env.csize V)
      simp only [hal]
      exact Marks.refl _
  | @copyFailed j env cchk fhash buf l el bt ret d cancel _ _ _ _ _ =>
      obtain ⟨al, hal⟩ := releaseContainer_parts ⟨inserted V j env cchk fhash el bt s, d, cancel⟩ cchk
        (env.csize V)
      simp only [hal]
      exact marks_addHentry rfl rfl
  | added _ _ _ _ _ => exact marks_addHentry rfl rfl
  | linked _ _ _ _ => exact marks_addHentry rfl rfl
  | removedLink _ _ _ => exact marks_addHentry rfl rfl
  | removed _ _ _ _ => exact marks_addHentry rfl rfl
  | defaultCleared _ => exact marks_clearDefault s.vol
  | defaultSet _ _ => exact (marks_clearDefault s.vol).trans (marks_addHentry rfl rfl)

/-- Every action keeps the files in order. -/
theorem Effect.files (he : Effect V lib s a r) (h : Good V s.vol s.disk) :
    ∀ i < V.conf.htableNbEntries, EntryOk V (V.memEntry r.2.vol i) := by
  have ht := h.table
  have hins : ∀ {j : Token} {env : AddEnv} {cchk : Nat} {fhash : Hash512} {l : List HtableEl}
      {el : HtableEl} {bt : Htable}, Reserves V env s cchk → Added s.vol.bt l fhash el bt →
      ∀ i < V.conf.htableNbEntries, EntryOk V (V.memEntry (inserted V j env cchk fhash el bt s) i) := by
    intro j env cchk fhash l el bt hres hadd
    obtain ⟨-, hb, hi⟩ := h.reserve hres
    obtain ⟨k, hk, rfl⟩ := ht.exists_slot hadd.inRange
    exact files_addHentry ht rfl rfl hk h.files (entryOk_file hb hi)
  cases he with
  | same _ => exact h.files
  | @undone j env cchk ret cancel _ _ _ =>
      obtain ⟨al, hal⟩ := releaseContainer_parts { reserve V env cchk s with cancel := cancel } cchk
        (env.csize V)
      simp only [hal]
      exact h.files
  | @copyFailed j env cchk fhash buf l el bt ret d cancel hres _ hadd _ _ =>
      obtain ⟨al, hal⟩ := releaseContainer_parts ⟨inserted V j env cchk fhash el bt s, d, cancel⟩ cchk
        (env.csize V)
      simp only [hal]
      exact hins hres hadd
  | added hres _ hadd _ _ => exact hins hres hadd
  | linked _ _ _ hadd =>
      obtain ⟨i, hi, rfl⟩ := ht.exists_slot hadd.inRange
      exact files_addHentry ht rfl rfl hi h.files entryOk_link
  | removedLink _ hfound _ =>
      obtain ⟨i, hi, rfl, -, -⟩ := ht.lookup_some hfound
      exact files_addHentry ht rfl rfl hi h.files (entryOk_clear _)
  | removed _ hfound _ _ =>
      obtain ⟨i, hi, rfl, -, -⟩ := ht.lookup_some hfound
      exact files_addHentry ht rfl rfl hi h.files (entryOk_clear _)
  | defaultCleared _ => exact files_clearDefault ht h.files
  | defaultSet _ hfound =>
      obtain ⟨i, hi, rfl, -, -⟩ := ht.lookup_some hfound
      have hslot : (clearDefault s.vol).slot i = s.vol.slot i := by
        unfold VolInfo.slot
        rw [clearDefault_bt]
      rw [← hslot]
      have hfiles := files_clearDefault ht h.files
      exact files_addHentry ht.cleared rfl rfl hi hfiles
        ((hfiles i hi).mapFlags fun x => (default_keeps_link x).1)

/-- Every action keeps the guard. -/
theorem Effect.guarded (he : Effect V lib s a r) (h : Good V s.vol s.disk) : Guarded V r.2.vol.al := by
  cases he with
  | same _ => exact h.guarded
  | undone hres _ _ => exact Guarded.release (h.reserve hres).1 (h.reserve hres).2.1
  | copyFailed hres _ _ _ _ => exact Guarded.release (h.reserve hres).1 (h.reserve hres).2.1
  | added hres _ _ _ _ => exact (h.reserve hres).1
  | linked _ _ _ _ => exact h.guarded
  | removedLink _ _ _ => exact h.guarded
  | removed _ hfound hfile hal =>
      obtain ⟨i, hi, rfl, hused, -⟩ := h.table.lookup_some hfound
      rw [h.table.isFree_slot hi] at hused
      have hent := h.table.hentry_eq hi
      rw [hent] at hused hfile hal
      exact h.guarded.unregister (h.files i hi hused hfile).behind hal
  | defaultCleared hdef =>
      show Guarded V (clearDefault s.vol).al
      unfold clearDefault
      rw [hdef]
      exact h.guarded
  | defaultSet _ _ =>
      show Guarded V (clearDefault s.vol).al
      unfold clearDefault
      split
      · exact h.guarded
      · exact h.guarded

/-- Every action keeps the invariant. -/
theorem Effect.good (he : Effect V lib s a r) (h : Good V s.vol s.disk) : Good V r.2.vol r.2.disk where
  table := he.table h.table
  coherent := h.coherent.step he.marks (he.sameTables h)
  files := he.files h
  guarded := he.guarded h

end Token

/-! ## Mounting and unmounting -/

section Mount

variable {V : Volume} {v : VolInfo} {d d' : Members}

/-- The registrations of `load_vol_alist` keep the guard. -/
theorem registerContainers_guarded {mem : Nat → Bool} {els : List HtableEl} {al : Alist}
    (h : Guarded V al) (hels : ∀ el ∈ els, V.lastTable ≤ (v.hentry el).chunk ∧
      (v.hentry el).chunk + containerLen V (v.hentry el) < u64Size) :
    Guarded V (registerContainers V v mem els al) := by
  unfold registerContainers
  generalize 0 = n
  induction els generalizing al n with
  | nil => exact h
  | cons el els ih =>
      obtain ⟨hs, hw⟩ := hels el List.mem_cons_self
      apply ih
      · exact h.register (mem n) hs hw (containerLen_le V _)
      · exact fun x hx => hels x (List.mem_cons_of_mem el hx)

/-- The container of a file does not wrap. -/
theorem FileOk.container {e : Hentry} (h : FileOk V e) : V.lastTable ≤ e.chunk ∧
    e.chunk + containerLen V e < u64Size := by
  have hle := containerLen_le V e
  have hv := V.volsize_le
  have hi := h.inside
  refine ⟨Nat.le_trans V.lastTable_le h.behind, ?_⟩
  simp only [u64Size]
  omega

theorem containerLen_congr {e e' : Hentry} (h : SameHentry e e') : containerLen V e = containerLen V e' := by
  obtain ⟨-, ho, hn⟩ := h.attrs
  unfold containerLen
  rw [ho, hn]

/-- A mounted volume is in order, if the volume was and its links lie behind the tables. -/
theorem mountShfs_good {env : MountEnv} (hio : env.Complete) (hm : mountShfs V env d = .ok v) (hd : DiskOk V d)
    (hlinks : LinksBehind V d) : Good V v d := by
  obtain ⟨hm, al, hstop, hff, hent, hal⟩ := mountShfs_spec hio hm
  have hmem : ∀ i < V.conf.htableNbEntries, SameHentry (V.memEntry v i) (V.diskEntry d i) := fun i hi =>
    (hm.cached _ (V.chunkNo_lt hi)).entry
  refine ⟨hm.table, fun c hc _ => (hm.cached c hc).bytes, fun i hi => (hd i hi).congr (hmem i hi), ?_⟩
  rw [hal]
  apply registerContainers_guarded (.initial hstop hff hent)
  intro el hel
  obtain ⟨l, hl⟩ := hm.table.listed
  rw [foreachHtableEl_eq hl] at hel
  obtain ⟨hin, hused⟩ := (hl.mem el).1 hel
  obtain ⟨i, hi, rfl⟩ := hm.table.exists_slot hin
  have hsame : SameHentry (v.hentry (v.slot i)) (V.diskEntry d i) := by
    rw [hm.table.hentry_eq hi]
    exact hmem i hi
  rw [hm.table.isFree_slot hi, hashIsZero_congr (hsame.sameHash V.hlen_le)] at hused
  rw [hsame.attrs.1, containerLen_congr hsame]
  cases hlink : (V.diskEntry d i).isLink with
  | true => exact hlinks i hi hused hlink
  | false => exact (hd i hi hused hlink).container

/-- What is on disk behind an unmount is in order, also if it was cut short. -/
theorem Good.umount (h : Good V v d) (hd : DiskOk V d) {env : UmountEnv} (hio : env.Complete) {ok : Bool}
    (hu : umountShfs V env v d = (ok, d')) : DiskOk V d' := by
  obtain ⟨cut, -, hent⟩ := umount_entries hio hu
  intro i hi
  have hi' := hent i hi
  split at hi'
  · exact (h.files i hi).congr hi'
  · exact (hd i hi).congr hi'

end Mount

/-! ## Runs -/

section Run

variable {V : Volume} {lib : MhashLib} {s t : Sys} {e : Event}

/-- The invariant of sessions. -/
structure Sys.Ok (V : Volume) (s : Sys) : Prop where
  disk : DiskOk V s.disk
  session : s.Holds (Good V)

/-- A mount finds the ranges of links behind the tables. -/
def MountOk (V : Volume) (s : Sys) : Event → Prop
  | .mount _ => LinksBehind V s.disk
  | _ => True

theorem umount_cases {env : UmountEnv} (hen : s.Enabled (.umount env))
    (h : (sessions V lib).next s (.umount env) = .ok t) :
    ∃ v c, s.session = some (v, c) ∧ t = ⟨(umountShfs V env v s.disk).2, none⟩ := by
  cases hsess : s.session with
  | none => exact absurd hsess hen
  | some p =>
      simp only [sessions_next, Sys.next, hsess] at h
      exact ⟨p.1, p.2, rfl, (Except.ok.inj h).symm⟩

theorem Sys.holds_none {P : VolInfo → Members → Prop} (d : Members) : (⟨d, none⟩ : Sys).Holds P :=
  fun _ _ h => by cases h

theorem Sys.holds_some {P : VolInfo → Members → Prop} {d : Members} {v : VolInfo} {c : Bool} (h : P v d) :
    (⟨d, some (v, c)⟩ : Sys).Holds P := fun w c' hw => by
  obtain ⟨rfl, -⟩ := Prod.mk.inj (Option.some.inj hw)
  exact h

/-- A step of sessions. The copy of a file may be cut short. -/
theorem ok_step (hs : s.Ok V) (hgood : MountOk V s e) (hio : e.TableComplete)
    (h : (anySessions V lib).Step s e t) : t.Ok V := by
  obtain ⟨hen, hnext⟩ := h
  cases e with
  | mount env =>
      obtain rfl | ⟨v, hv, rfl⟩ := @mount_cases V lib _ _ _ hnext
      · exact ⟨hs.disk, Sys.holds_none _⟩
      · exact ⟨hs.disk, Sys.holds_some (mountShfs_good hio hv hs.disk hgood)⟩
  | token a =>
      obtain ⟨v, hv⟩ := hen
      have hg := hs.session v false hv
      obtain rfl | ⟨ret, s', heff, rfl⟩ := token_effect hv hg.table hnext
      · exact ⟨hs.disk, Sys.holds_none _⟩
      · refine ⟨fun i hi => ?_, Sys.holds_some (heff.good hg)⟩
        exact (hs.disk i hi).congr ((heff.sameTables hg).entry hi)
  | umount env =>
      obtain ⟨v, c, hv, rfl⟩ := @umount_cases V lib _ _ _ hen hnext
      exact ⟨(hs.session v c hv).umount hs.disk hio rfl, Sys.holds_none _⟩

/-- A step keeps what writes to the chunks behind the label keep. -/
theorem step_frame {R : Members → Members → Prop} (hR : Frame V.g (2 ≤ ·) R) (hs : s.Ok V)
    (h : (sessions V lib).Step s e t) : R s.disk t.disk := by
  obtain ⟨⟨hen, hio⟩, hnext⟩ := h
  cases e with
  | mount env =>
      obtain rfl | ⟨v, -, rfl⟩ := mount_cases hnext
      · exact hR.refl _
      · exact hR.refl _
  | token a =>
      obtain ⟨v, hv⟩ := hen
      have hg := hs.session v false hv
      obtain rfl | ⟨ret, s', heff, rfl⟩ := token_effect hv hg.table hnext
      · exact hR.refl _
      · have hbehind : Frame V.g (V.tablesEnd ≤ ·) R :=
          hR.mono fun c hc => Nat.le_trans (Nat.le_add_right 2 _) hc
        exact heff.frame hbehind hg
  | umount env =>
      obtain ⟨v, c, -, rfl⟩ := umount_cases hen hnext
      have htables : Frame V.g (fun c => 2 ≤ c ∧ c < V.tablesEnd) R := hR.mono fun c hc => hc.1
      exact umount_frame htables rfl

/-- The table of a new volume is filled with zeros. -/
def Formatted (V : Volume) (d : Members) : Prop :=
  ∀ c < V.htableLen, ∀ k < V.chunksize, chunkAt V.g d (V.conf.htableChunk c) k = 0

theorem Formatted.entry {d : Members} (h : Formatted V d) {i : Nat} (hi : i < V.conf.htableNbEntries) :
    SameHentry (V.diskEntry d i) Bytes.zeros := fun _ hk =>
  h _ (V.chunkNo_lt hi) _ (V.entry_byte i hk)

/-- No entry of a new volume is in use. -/
theorem Formatted.unused {d : Members} (h : Formatted V d) {i : Nat} (hi : i < V.conf.htableNbEntries) :
    hashIsZero (V.diskEntry d i) V.hlen = true := by
  rw [hashIsZero_congr ((h.entry hi).sameHash V.hlen_le)]
  exact hashIsZero_zeros _

theorem Formatted.ok {d : Members} (h : Formatted V d) : (⟨d, none⟩ : Sys).Ok V where
  disk := fun i hi hz _ => by
    rw [h.unused hi] at hz
    cases hz
  session := Sys.holds_none d

theorem Formatted.linksBehind {d : Members} (h : Formatted V d) : LinksBehind V d := fun i hi hz _ => by
  rw [h.unused hi] at hz
  cases hz

end Run

end Minipython.Tools.Admin
