/-
# Minipython.Tools.Default — the default object (shfs_admin.c)

Three things should be in step: the default flag of an entry, the reference `def_bentry`, and the entry
being in use. Setting and clearing the default keep them so, and a new entry has no flag. Removing does
not: `actn_rmfile` clears the digest of an entry and neither its flag nor the reference, so the default
object is then a slot that is not in use, in memory and after the next mount.

`default_object` says that they are in step as long as the default object is not removed. On disk a
write error of an unmount can leave the flags of two entries, when the new default object comes first.

`DefaultOk` is about a mounted table, `DiskDefault` about the disk: no more than one entry has the flag, it
is in use, and `def_bentry` refers to it. A unikernel takes the last flagged entry that it meets; on a disk
that is in step this is the default object (`DiskDefault.unikernel`). A token that sets or clears the
default changes the flag, the reference and the mark of the chunk in one go, so the step is read off its
`Effect`.

The flag stands in the byte behind the time stamp, which a link has as well. The run may have any failures;
those that matter are in `KeepsDefault`: short transfers of the table, an unmount that is cut short between
the two flags, and a mount that takes a link for a file in front of the table.
-/
import Minipython.Tools.Coherence

namespace Minipython.Tools.Admin

open Minipython.Lib
open Minipython.Shfs
open Htable

/-! ## Flags -/

theorem isDefault_of_flags {e : Hentry} {x : UInt8} (h : e.flags = x) :
    e.isDefault = (x &&& shfsEflagDefault != 0) := by
  unfold Hentry.isDefault
  rw [h]

/-- The default flag is the bit that is set and cleared. -/
theorem default_set_clear (x : UInt8) : ((x ||| shfsEflagDefault) &&& shfsEflagDefault != 0) = true ∧
    ((x &&& ~~~shfsEflagDefault) &&& shfsEflagDefault != 0) = false := by
  apply uint8_all (P := fun x => ((x ||| shfsEflagDefault) &&& shfsEflagDefault != 0) = true ∧
    ((x &&& ~~~shfsEflagDefault) &&& shfsEflagDefault != 0) = false)
  decide +kernel

theorem isDefault_set (e : Hentry) : (mapFlags (fun f => f ||| shfsEflagDefault) e).isDefault = true := by
  rw [isDefault_of_flags (mapFlags_flags _ e)]
  exact (default_set_clear e.flags).1

theorem isDefault_clear (e : Hentry) :
    (mapFlags (fun f => f &&& ~~~shfsEflagDefault) e).isDefault = false := by
  rw [isDefault_of_flags (mapFlags_flags _ e)]
  exact (default_set_clear e.flags).2

theorem isDefault_file {V : Volume} {e : Hentry} {fhash : Hash512} {cchk fsize now : Nat} {j : Token} :
    (fileHentry e V.hlen fhash cchk fsize now j).isDefault = false := by
  rw [isDefault_of_flags fileHentry_flags]
  rfl

theorem isDefault_link {V : Volume} {e : Hentry} {fhash : Hash512} {rhost : Bytes} {u : HttpParserUrl}
    {now : Nat} {j : Token} : (linkHentry e V.hlen fhash rhost u now j).isDefault = false := by
  rw [isDefault_of_flags linkHentry_flags]
  rfl

theorem isDefault_hashClear {V : Volume} {e : Hentry} :
    Hentry.isDefault (hashClear e V.hlen) = e.isDefault := by
  have hflags : Hentry.flags (hashClear e V.hlen) = e.flags :=
    hashClear_behind V.hlen_le (by decide : 64 ≤ 180)
  rw [isDefault_of_flags hflags]
  rfl

/-! ## In step -/

/-- The default object in memory: the entry that is flagged is the one that `def_bentry` refers to, and
it is in use. -/
structure DefaultOk (V : Volume) (v : VolInfo) : Prop where
  flagged : ∀ i < V.conf.htableNbEntries,
    (V.memEntry v i).isDefault = true ↔ v.defBentry = some (v.slot i)
  live : ∀ el, v.defBentry = some el → v.bt.InRange el ∧ v.bt.isFree el = false

/-- The default object on disk: at most one entry is flagged, and it is in use. -/
structure DiskDefault (V : Volume) (d : Members) : Prop where
  unique : ∀ i < V.conf.htableNbEntries, ∀ j < V.conf.htableNbEntries,
    (V.diskEntry d i).isDefault = true → (V.diskEntry d j).isDefault = true → i = j
  live : ∀ i < V.conf.htableNbEntries, (V.diskEntry d i).isDefault = true →
    hashIsZero (V.diskEntry d i) V.hlen = false

section Tokens

variable {V : Volume} {lib : MhashLib} {v w : VolInfo} {s : Session} {a : Action} {r : Int × Session}
  {i : Nat} {f : Hentry → Hentry}

/-- A change of an entry that was not flagged and is not, where the slots in use before stay so. -/
theorem DefaultOk.other (h : DefaultOk V v) (ht : Table V v)
    (hcache : w.htableChunkCache = v.htableChunkCache) (hbe : w.bentry = v.bentry)
    (hdef : w.defBentry = v.defBentry) (hg : SameGeom v.bt w.bt) (hi : i < V.conf.htableNbEntries)
    (hno : v.defBentry ≠ some (v.slot i)) (hf : (f (V.memEntry v i)).isDefault = false)
    (hbt : ∀ el, el ≠ v.slot i → w.bt.h el = v.bt.h el) :
    DefaultOk V (addHentry w (v.slot i) f) where
  flagged := by
    intro j hj
    have hmem := (memEntry_addHentry ht f hcache hbe hi hj).isDefault
    have hslot : (addHentry w (v.slot i) f).slot j = v.slot j := hg.slot j
    rw [hmem, hslot, addHentry_defBentry, hdef]
    split
    · rename_i hji
      subst hji
      rw [hf]
      exact ⟨(fun h => by cases h), fun h => absurd h hno⟩
    · exact h.flagged j hj
  live := by
    intro el hel
    rw [addHentry_defBentry, hdef] at hel
    obtain ⟨hin, hfree⟩ := h.live el hel
    have hne : el ≠ v.slot i := fun heq => hno (heq ▸ hel)
    refine ⟨(hg.inRange el).2 hin, ?_⟩
    rw [← hfree]
    show hashIsZero (w.bt.h el) w.bt.hlen = hashIsZero (v.bt.h el) v.bt.hlen
    rw [hbt el hne, hg.2.2]

/-- A slot in use holds a new entry without the flag. -/
theorem DefaultOk.added (h : DefaultOk V v) (ht : Table V v) {l : List HtableEl} {fhash : Hash512}
    {el : HtableEl} {bt : Htable} (ha : Added v.bt l fhash el bt)
    (hcache : w.htableChunkCache = v.htableChunkCache) (hbe : w.bentry = v.bentry)
    (hdef : w.defBentry = v.defBentry) (hbt : w.bt = bt) (hf : ∀ e, (f e).isDefault = false) :
    DefaultOk V (addHentry w el f) := by
  subst hbt
  obtain ⟨i, hi, rfl⟩ := ht.exists_slot ha.inRange
  apply h.other ht hcache hbe hdef ha.geom hi
  · intro hel
    have hlive := (h.live _ hel).2
    rw [ha.free] at hlive
    cases hlive
  · exact hf _
  · intro el hne
    rw [ha.digests, Function.update_of_ne hne]

/-- An entry that is not the default object is removed. -/
theorem DefaultOk.removed (h : DefaultOk V v) (ht : Table V v) {hash : Hash512} {el : HtableEl}
    (hfound : shfsBtableLookup v.bt hash = some el) (hno : v.defBentry ≠ some el) :
    DefaultOk V (rmEntry V hash el v) := by
  obtain ⟨l, hl⟩ := ht.listed
  obtain ⟨i, hi, rfl, -, -⟩ := ht.lookup_some hfound
  obtain ⟨hg, hh, -⟩ := htableRm_spec hl (htableLookup_used hl ht.nbBkts_pos hfound)
  have hrm : shfsBtableRmentry v.bt hash = htableRm v.bt (v.slot i) := by
    change htableLookup v.bt hash = _ at hfound
    unfold shfsBtableRmentry
    rw [hfound]
  unfold rmEntry
  rw [hrm]
  refine h.other ht rfl rfl rfl hg hi hno ?_ ?_
  · rw [isDefault_hashClear, ← Bool.not_eq_true]
    exact fun hd => hno ((h.flagged i hi).1 hd)
  · intro x hne
    show (htableRm v.bt (v.slot i)).h x = _
    rw [hh, Function.update_of_ne hne]

/-- Behind `actn_cleardefault` no entry is flagged. -/
theorem DefaultOk.cleared (h : DefaultOk V v) (ht : Table V v) :
    (clearDefault v).defBentry = none ∧
      ∀ i < V.conf.htableNbEntries, (V.memEntry (clearDefault v) i).isDefault = false := by
  cases hdef : v.defBentry with
  | none =>
      have hsame : clearDefault v = v := by
        unfold clearDefault
        rw [hdef]
      rw [hsame]
      refine ⟨hdef, fun i hi => ?_⟩
      rw [← Bool.not_eq_true, h.flagged i hi, hdef]
      exact fun h => by cases h
  | some el =>
      obtain ⟨i, hi, rfl⟩ := ht.exists_slot (ht.dflt el hdef)
      have hclear : clearDefault v =
          { bentryClearflags v (v.slot i) shfsEflagDefault with defBentry := none } := by
        unfold clearDefault
        rw [hdef]
      rw [hclear]
      refine ⟨rfl, fun j hj => ?_⟩
      have hmem := (memEntry_addHentry ht (mapFlags fun f => f &&& ~~~shfsEflagDefault)
        rfl rfl hi hj).isDefault
      refine hmem.trans ?_
      split
      · exact isDefault_clear _
      · rename_i hji
        rw [← Bool.not_eq_true, h.flagged j hj, hdef]
        exact fun heq => hji (Table.slot_injective (Option.some.inj heq)).symm

/-- Behind `actn_setdefault` the entry that was found is the default object. -/
theorem DefaultOk.set (h : DefaultOk V v) (ht : Table V v) {hash : Hash512} {el : HtableEl}
    (hfound : shfsBtableLookup v.bt hash = some el) : DefaultOk V
      { bentrySetflags (clearDefault v) el shfsEflagDefault with defBentry := some el } := by
  obtain ⟨i, hi, rfl, hused, -⟩ := ht.lookup_some hfound
  obtain ⟨-, hnone⟩ := h.cleared ht
  have hin : v.bt.InRange (v.slot i) := ht.inRange_slot hi
  have hslot : ∀ j, (clearDefault v).slot j = v.slot j := fun j => by
    unfold VolInfo.slot
    rw [clearDefault_bt]
  constructor
  case flagged =>
      intro j hj
      have hmem := (memEntry_addHentry ht.cleared (mapFlags fun f => f ||| shfsEflagDefault)
        rfl rfl hi hj).isDefault
      rw [hslot] at hmem
      show (V.memEntry (addHentry (clearDefault v) (v.slot i) _) j).isDefault = true ↔
        some (v.slot i) = some ((clearDefault v).slot j)
      rw [hmem, hslot]
      split
      · rename_i hji
        rw [hji, isDefault_set]
        exact ⟨fun _ => rfl, fun _ => rfl⟩
      · rename_i hji
        rw [hnone j hj]
        exact ⟨(fun h => by cases h), fun heq => absurd (Table.slot_injective (Option.some.inj heq)).symm hji⟩
  case live =>
      intro el hel
      obtain rfl := Option.some.inj hel
      show (clearDefault v).bt.InRange _ ∧ (clearDefault v).bt.isFree _ = false
      rw [clearDefault_bt]
      exact ⟨hin, hused⟩

/-- `rm-obj` removes the default object: the digest is that of its entry, which is a link or has a
container that is registered. -/
def RemovesDefault (V : Volume) (v : VolInfo) (j : Token) : Prop :=
  ∃ h el, hashParse j.path Bytes.zeros V.hlen = some h ∧ shfsBtableLookup v.bt h = some el ∧
    v.defBentry = some el ∧ ((v.hentry el).isLink = true ∨ container V (v.hentry el) ∈ v.al.entries)

/-- Every action but the removal of the default object keeps it in step. -/
theorem Effect.default (he : Effect V lib s a r) (ht : Table V s.vol) (h : DefaultOk V s.vol)
    (hno : ∀ j, a = .rmObj j → ¬ RemovesDefault V s.vol j) : DefaultOk V r.2.vol := by
  cases he with
  | same _ => exact h
  | @undone j env cchk ret cancel _ _ _ =>
      obtain ⟨al, hal⟩ := releaseContainer_parts { reserve V env cchk s with cancel := cancel } cchk
        (env.csize V)
      simp only [hal]
      exact ⟨h.flagged, h.live⟩
  | @copyFailed j env cchk fhash buf l el bt ret d cancel _ _ hadd _ _ =>
      obtain ⟨al, hal⟩ := releaseContainer_parts ⟨inserted V j env cchk fhash el bt s, d, cancel⟩ cchk
        (env.csize V)
      simp only [hal]
      have hins : DefaultOk V (inserted V j env cchk fhash el bt s) :=
        h.added ht hadd rfl rfl rfl rfl fun e => isDefault_file
      exact ⟨hins.flagged, hins.live⟩
  | added _ _ hadd _ _ => exact h.added ht hadd rfl rfl rfl rfl fun e => isDefault_file
  | linked _ _ _ hadd => exact h.added ht hadd rfl rfl rfl rfl fun e => isDefault_link
  | @removedLink j hash el hparse hfound hlink =>
      apply h.removed ht hfound
      exact fun hdef => hno j rfl ⟨hash, el, hparse, hfound, hdef, .inl hlink⟩
  | @removed j hash el al hparse hfound hfile hal =>
      have hne : s.vol.defBentry ≠ some el := fun hdef =>
        hno j rfl ⟨hash, el, hparse, hfound, hdef, .inr (unregister_some hal).1⟩
      have h' : DefaultOk V { s.vol with al := al } := ⟨h.flagged, h.live⟩
      have ht' : Table V { s.vol with al := al } := ht.congr rfl rfl rfl ht.dflt
      exact h'.removed ht' hfound hne
  | defaultCleared _ =>
      obtain ⟨hnone, hclear⟩ := h.cleared ht
      refine ⟨fun i hi => ?_, fun el hel => ?_⟩
      · show (V.memEntry (clearDefault s.vol) i).isDefault = true ↔ (clearDefault s.vol).defBentry = _
        rw [hclear i hi, hnone]
        exact ⟨(fun h => by cases h), (fun h => by cases h)⟩
      · change (clearDefault s.vol).defBentry = _ at hel
        rw [hnone] at hel
        cases hel
  | defaultSet _ hfound => exact h.set ht hfound

end Tokens

/-! ## Mounting and unmounting -/

section Mount

variable {V : Volume} {v : VolInfo} {d d' : Members} {i : Nat}

/-- The last flagged entry is the flagged entry. -/
theorem DiskDefault.lastDefault_iff (h : DiskDefault V d) (hi : i < V.conf.htableNbEntries) :
    Vol.lastDefault (V.diskEntry d) V.conf.htableNbEntries = some i ↔
      (V.diskEntry d i).isDefault = true := by
  unfold Vol.lastDefault
  constructor
  · exact fun hlast => (List.mem_filter.1 (List.mem_of_getLast? hlast)).2
  · intro hflag
    have hmem : i ∈ (List.range V.conf.htableNbEntries).filter fun i => (V.diskEntry d i).isDefault :=
      List.mem_filter.2 ⟨List.mem_range.2 hi, hflag⟩
    cases hlast : ((List.range V.conf.htableNbEntries).filter fun i =>
        (V.diskEntry d i).isDefault).getLast? with
    | none =>
        rw [List.getLast?_eq_none_iff.1 hlast] at hmem
        cases hmem
    | some j =>
        obtain ⟨hj, hflag'⟩ := List.mem_filter.1 (List.mem_of_getLast? hlast)
        rw [h.unique j (List.mem_range.1 hj) i hi hflag' hflag]

/-- A mount finds the default object in step. -/
theorem Mounted.default (hm : Mounted V (V.tableOn d) v) (h : DiskDefault V d) : DefaultOk V v := by
  have hslot : ∀ j < V.conf.htableNbEntries, v.defBentry = some (v.slot j) ↔
      (V.diskEntry d j).isDefault = true := fun j hj => by
    rw [← h.lastDefault_iff hj, hm.dflt, Option.map_eq_some_iff]
    constructor
    · rintro ⟨k, hk, heq⟩
      rw [← Table.slot_injective heq]
      exact hk
    · exact fun hk => ⟨j, hk, rfl⟩
  have hent : ∀ j < V.conf.htableNbEntries, SameHentry (V.memEntry v j) (V.diskEntry d j) := fun j hj =>
    (hm.cached _ (V.chunkNo_lt hj)).entry
  constructor
  case flagged =>
      intro j hj
      rw [hslot j hj, (hent j hj).isDefault]
  case live =>
      intro el hel
      have hin := hm.table.dflt el hel
      obtain ⟨j, hj, rfl⟩ := hm.table.exists_slot hin
      refine ⟨hin, ?_⟩
      rw [hm.table.isFree_slot hj, hashIsZero_congr ((hm.entry hj).sameHash V.hlen_le)]
      exact h.live j hj ((hslot j hj).1 hel)

/-- An unmount leaves the default object in step on disk, unless it is cut short and the entry that was
flagged there lies behind the one that is flagged in memory. -/
theorem DefaultOk.umount (h : DefaultOk V v) (hg : Good V v d) (hd : DiskDefault V d) {env : UmountEnv}
    (hio : env.Complete) {ok : Bool} (hu : umountShfs V env v d = (ok, d'))
    (hcut : ok = true ∨ ∀ i < V.conf.htableNbEntries, ∀ j < V.conf.htableNbEntries,
      (V.diskEntry d i).isDefault = true → (V.memEntry v j).isDefault = true → i ≤ j) :
    DiskDefault V d' := by
  obtain ⟨cut, hok, hent⟩ := umount_entries hio hu
  -- an entry behind the unmount is the one in memory in front of the cut, and the old one behind it
  have hent' : ∀ i < V.conf.htableNbEntries, SameHentry (V.diskEntry d' i)
      (if i < cut then V.memEntry v i else V.diskEntry d i) := fun i hi => by
    have hi' := hent i hi
    by_cases hlt : i < cut
    · rw [if_pos hlt]
      cases hstate : v.htableChunkCacheState (shfsHtableChunkNo i V.conf.htableNbEntriesPerChunk) with
      | true =>
          rw [if_pos ⟨hstate, hlt⟩] at hi'
          exact hi'
      | false =>
          rw [if_neg fun hs => by rw [hstate] at hs; cases hs.1] at hi'
          refine hi'.trans fun k hk => ?_
          exact (hg.coherent _ (V.chunkNo_lt hi) hstate _ (V.entry_byte i hk)).symm
    · rw [if_neg hlt]
      rwa [if_neg fun hs => hlt hs.2] at hi'
  have huniq : ∀ i < V.conf.htableNbEntries, ∀ j < V.conf.htableNbEntries,
      (V.memEntry v i).isDefault = true → (V.memEntry v j).isDefault = true → i = j := by
    intro i hi j hj hfi hfj
    have heq := ((h.flagged i hi).1 hfi).symm.trans ((h.flagged j hj).1 hfj)
    exact Table.slot_injective (Option.some.inj heq)
  -- an old flag does not lie behind a new one
  have hmixed : ∀ i < V.conf.htableNbEntries, ∀ j < V.conf.htableNbEntries, ¬ i < cut → j < cut →
      (V.diskEntry d i).isDefault = true → (V.memEntry v j).isDefault = true → False := by
    intro i hi j hj hic hjc hfi hfj
    obtain htrue | hle := hcut
    · have := hok htrue
      omega
    · have := hle i hi j hj hfi hfj
      omega
  constructor
  case unique =>
      intro i hi j hj hfi hfj
      have hi' := (hent' i hi).isDefault
      have hj' := (hent' j hj).isDefault
      rw [hfi] at hi'
      rw [hfj] at hj'
      split at hi'
      · rename_i hic
        split at hj'
        · exact huniq i hi j hj hi'.symm hj'.symm
        · rename_i hjc
          exact (hmixed j hj i hi hjc hic hj'.symm hi'.symm).elim
      · rename_i hic
        split at hj'
        · rename_i hjc
          exact (hmixed i hi j hj hic hjc hi'.symm hj'.symm).elim
        · exact hd.unique i hi j hj hi'.symm hj'.symm
  case live =>
      intro i hi hfi
      have hi' := hent' i hi
      rw [hi'.isDefault] at hfi
      rw [hashIsZero_congr (hi'.sameHash V.hlen_le)]
      split at hfi
      · rename_i hic
        rw [if_pos hic]
        have hlive := (h.live _ ((h.flagged i hi).1 hfi)).2
        rw [hg.table.isFree_slot hi, hg.table.hentry_eq hi] at hlive
        exact hlive
      · rename_i hic
        rw [if_neg hic]
        exact hd.live i hi hfi

/-- The unikernel finds no default object or one that is in use. -/
theorem DiskDefault.unikernel (h : DiskDefault V d) {w : Vol}
    (hw : Shfs.loadVolHtable V.conf (fun c => some (chunkAt V.g d c)) = .ok (.ok w)) {el : HtableEl}
    (hel : w.defBentry = some el) : w.bt.InRange el ∧ w.bt.isFree el = false := by
  obtain ⟨w', hw', hconf, hchk, hload⟩ :=
    Shfs.loadVolHtable_spec V.conf (fun c => some (chunkAt V.g d c)) fun _ _ => rfl
  obtain rfl := Except.ok.inj (Except.ok.inj (hw'.symm.trans hw))
  have htab : tableEntry V.conf w'.htableChunkCache = V.diskEntry d := by
    rw [hchk]
    rfl
  rw [htab] at hload
  rw [hload.dflt, Option.map_eq_some_iff] at hel
  obtain ⟨i, hlast, rfl⟩ := hel
  have hi : i < V.conf.htableNbEntries :=
    List.mem_range.1 (List.mem_filter.1 (List.mem_of_getLast? hlast)).1
  have hlive := h.live i hi ((h.lastDefault_iff hi).1 hlast)
  have hmem : w'.slot i ∈ w'.usedSlots (V.diskEntry d) V.conf.htableNbEntries := by
    refine Vol.mem_usedSlots.2 ⟨i, hi, ?_, rfl⟩
    rw [hconf]
    exact hlive
  exact (hload.listed.mem _).1 hmem

end Mount

/-! ## Runs -/

/-- What keeps the default object in step: no removal of the default object, no unmount that is cut
short by a write error while the entry flagged on disk lies behind the one flagged in memory, at a mount no
link whose range lies in front of the last table or wraps, and no transfer of the table that returns early. -/
def KeepsDefault (V : Volume) (s : Sys) : Event → Prop
  | .mount env => env.Complete ∧ LinksBehind V s.disk
  | .token (.rmObj j) => ∀ v c, s.session = some (v, c) → ¬ RemovesDefault V v j
  | .token _ => True
  | .umount env => env.Complete ∧ ∀ v c, s.session = some (v, c) → (umountShfs V env v s.disk).1 = true ∨
      ∀ i < V.conf.htableNbEntries, ∀ j < V.conf.htableNbEntries,
        (V.diskEntry s.disk i).isDefault = true → (V.memEntry v j).isDefault = true → i ≤ j

/-- The default object is in step in memory, on disk, and for the unikernel. -/
structure Sys.DefaultOk (V : Volume) (s : Sys) : Prop where
  memory : s.Holds fun v _ => Admin.DefaultOk V v
  disk : DiskDefault V s.disk
  unikernel : ∀ w, Shfs.loadVolHtable V.conf (fun c => some (chunkAt V.g s.disk c)) = .ok (.ok w) →
    ∀ el, w.defBentry = some el → w.bt.InRange el ∧ w.bt.isFree el = false

section Run

variable {V : Volume} {lib : MhashLib} {s t : Sys} {e : Event}

theorem DiskDefault.tables {d d' : Members} (h : DiskDefault V d) (hs : SameTables V d d') :
    DiskDefault V d' where
  unique := fun i hi j hj hfi hfj => by
    rw [(hs.entry hi).isDefault] at hfi
    rw [(hs.entry hj).isDefault] at hfj
    exact h.unique i hi j hj hfi hfj
  live := fun i hi hfi => by
    rw [(hs.entry hi).isDefault] at hfi
    rw [hashIsZero_congr ((hs.entry hi).sameHash V.hlen_le)]
    exact h.live i hi hfi

/-- A step keeps the default object in step. -/
theorem default_step (hok : s.Ok V) (hm : s.Holds fun v _ => DefaultOk V v) (hd : DiskDefault V s.disk)
    (hgood : KeepsDefault V s e) (h : (anySessions V lib).Step s e t) :
    t.Ok V ∧ (t.Holds fun v _ => DefaultOk V v) ∧ DiskDefault V t.disk := by
  have hmount : e.TableComplete ∧ MountOk V s e := by
    cases e with
    | mount env => exact hgood
    | token a => exact ⟨trivial, trivial⟩
    | umount env => exact ⟨hgood.1, trivial⟩
  refine ⟨ok_step hok hmount.2 hmount.1 h, ?_⟩
  obtain ⟨hen, hnext⟩ := h
  cases e with
  | mount env =>
      obtain rfl | ⟨v, hv, rfl⟩ := @mount_cases V lib _ _ _ hnext
      · exact ⟨Sys.holds_none _, hd⟩
      · exact ⟨Sys.holds_some ((mountShfs_spec hgood.1 hv).1.default hd), hd⟩
  | token a =>
      obtain ⟨v, hv⟩ := hen
      have hg := hok.session v false hv
      obtain rfl | ⟨ret, s', heff, rfl⟩ := token_effect hv hg.table hnext
      · exact ⟨Sys.holds_none _, hd⟩
      · refine ⟨Sys.holds_some (heff.default hg.table (hm v false hv) ?_), hd.tables (heff.sameTables hg)⟩
        rintro j rfl
        exact hgood v false hv
  | umount env =>
      obtain ⟨v, c, hv, rfl⟩ := @umount_cases V lib _ _ _ hen hnext
      exact ⟨Sys.holds_none _, (hm v c hv).umount (hok.session v c hv) hd hgood.1 rfl (hgood.2 v c hv)⟩

/-- On a new volume there is no default object. -/
theorem Formatted.default {d : Members} (h : Formatted V d) : DiskDefault V d := by
  have hno : ∀ i < V.conf.htableNbEntries, (V.diskEntry d i).isDefault = false := fun i hi => by
    rw [(h.entry hi).isDefault]
    rfl
  constructor
  · intro i hi _ _ hfi
    rw [hno i hi] at hfi
    cases hfi
  · intro i hi hfi
    rw [hno i hi] at hfi
    cases hfi

/-- In every run from a new volume whose steps all keep the default object, it is in step in every state
reached. In step is the flag with the reference in memory, with an entry in use on disk, and both with what
a unikernel takes for its default file when it mounts the disk. -/
theorem default_object {d₀ : Members} {es : List Event} (hd₀ : Formatted V d₀)
    (hrun : ((anySessions V lib).restrict (KeepsDefault V)).Run ⟨d₀, none⟩ es s) : s.DefaultOk V := by
  have hinv : s.Ok V ∧ (s.Holds fun v _ => DefaultOk V v) ∧ DiskDefault V s.disk := by
    apply hrun.invariant
      (I := fun s => s.Ok V ∧ (s.Holds fun v _ => DefaultOk V v) ∧ DiskDefault V s.disk)
    · intro s e t hs hstep
      obtain ⟨hstep, hgood⟩ := Machine.restrict_step.1 hstep
      exact default_step hs.1 hs.2.1 hs.2.2 hgood hstep
    · exact ⟨hd₀.ok, Sys.holds_none _, hd₀.default⟩
  exact ⟨hinv.2.1, hinv.2.2, fun w hw el hel => hinv.2.2.unikernel hw hel⟩

end Run

/-- The digest of 32 ones. -/
def onesDigest : CString := (List.replicate 32 [48, 49]).flatten

/-- A file is added to a new volume and made the default object. -/
theorem default_object_set : ∃ s v, (anySessions tinyVolume onesLib).Run ⟨fun _ _ => 0, none⟩
      [.mount plainMount, .token (.addObj (plainToken [97]) (plainFile 1 (by decide))),
        .token (.setDefault (plainToken onesDigest))] s ∧
    s.session = some (v, false) ∧ v.defBentry = some (0, 0) ∧ s.DefaultOk tinyVolume := by
  have hexec := @Machine.Run.of_exec_any Sys Event Fault (anySessions tinyVolume onesLib) _
    ⟨fun _ _ => 0, none⟩
    [.mount plainMount, .token (.addObj (plainToken [97]) (plainFile 1 (by decide))),
      .token (.setDefault (plainToken onesDigest))]
    (fun s => s.inSession fun v => v.defBentry == some (0, 0)) (by decide +kernel)
  rcases hexec with ⟨s, hrun, hp⟩
  rcases Sys.inSession_spec hp with ⟨v, hs, hp⟩
  refine ⟨s, v, hrun, hs, beq_iff_eq.1 hp, ?_⟩
  have hd₀ : Formatted tinyVolume fun _ _ => 0 := fun _ _ _ _ => rfl
  cases hrun with
  | cons h1 h2 =>
      refine default_object hd₀ (.cons (Machine.restrict_step.2 ⟨h1, plainMount_complete, hd₀.linksBehind⟩)
        (h2.restrict fun e he u => ?_))
      obtain rfl | he := List.mem_cons.1 he
      · trivial
      · obtain rfl := List.mem_singleton.1 he
        trivial

/-- When the default object is removed, `def_bentry` refers to a slot that is not in use, and so it does
in the unikernel behind the unmount. -/
theorem rmfile_leaves_default : ∃ s v t w, (anySessions tinyVolume onesLib).Run ⟨fun _ _ => 0, none⟩
      [.mount plainMount, .token (.addObj (plainToken [97]) (plainFile 1 (by decide))),
        .token (.setDefault (plainToken onesDigest)), .token (.rmObj (plainToken onesDigest))] s ∧
    s.session = some (v, false) ∧ v.defBentry = some (0, 0) ∧ v.bt.isFree (0, 0) = true ∧
    (anySessions tinyVolume onesLib).Run s [.umount plainUmount] t ∧
    Shfs.loadVolHtable tinyVolume.conf (fun c => some (chunkAt tinyVolume.g t.disk c)) = .ok (.ok w) ∧
    w.defBentry = some (0, 0) ∧ w.bt.isFree (0, 0) = true ∧ ¬ s.DefaultOk tinyVolume := by
  have hexec := @Machine.Run.of_exec_any Sys Event Fault (anySessions tinyVolume onesLib) _
    ⟨fun _ _ => 0, none⟩
    [.mount plainMount, .token (.addObj (plainToken [97]) (plainFile 1 (by decide))),
      .token (.setDefault (plainToken onesDigest)), .token (.rmObj (plainToken onesDigest))]
    (fun s => s.inSession fun v => v.defBentry == some (0, 0) && v.bt.isFree (0, 0) &&
      ((anySessions tinyVolume onesLib).exec s [.umount plainUmount]).any fun t =>
        (Shfs.loadVolHtable tinyVolume.conf fun c => some (chunkAt tinyVolume.g t.disk c)).toOption.any fun r =>
          r.toOption.any fun w => w.defBentry == some (0, 0) && w.bt.isFree (0, 0)) (by decide +kernel)
  rcases hexec with ⟨s, hrun, hp⟩
  rcases Sys.inSession_spec hp with ⟨v, hs, hp⟩
  simp only [Bool.and_eq_true, beq_iff_eq] at hp
  rcases hp with ⟨⟨hdef, hfree⟩, humount⟩
  rcases Machine.Run.of_exec_any humount with ⟨t, hrun', hp⟩
  rcases ok_of_any hp with ⟨r, hload, hp⟩
  rcases ok_of_any hp with ⟨w, rfl, htest⟩
  simp only [Bool.and_eq_true, beq_iff_eq] at htest
  refine ⟨s, v, t, w, hrun, hs, hdef, hfree, hrun', hload, htest.1, htest.2, fun hok => ?_⟩
  have hlive := ((hok.memory v false hs).live _ hdef).2
  rw [hfree] at hlive
  cases hlive

end Minipython.Tools.Admin
