/-
# Minipython.Shfs.Remount — one entry of a remount (shfs.c, reload_vol_htable)

The body of the entry loop falls apart at `down(&bentry->updatelock)`, where the thread may block:
`reloadEntry` is the part before, `reloadUpdate` the part after. Both branches of the comparison do the
same to the table (they differ in the statistics only, see `Minipython.Shfs.Stats`), and a differing pair
with two zero digests does not exist, so `reloadEntry_eq` feeds every entry.

Flushing the chunk cache happens inside `reloadUpdate` and touches nothing modelled here.
-/
import Minipython.Shfs.Fio

namespace Minipython.Shfs

open Minipython.Lib

/-- The entry number `e` of a table chunk. -/
def chunkEntry (conf : VolConf) (buf : Bytes) (e : Nat) : Hentry :=
  Bytes.window buf (shfsHtableEntryOffset e conf.htableNbEntriesPerChunk)

/-- The entry loop up to `down`: compare the cached entry `e` of chunk `c` with the one just read,
feed the bucket table and forbid further opens. The result names the bentry to lock. -/
def reloadEntry (v : Vol) (c e : Nat) (nchk : Bytes) : Except Fault (Option HtableEl × Vol) :=
  let chentry := chunkEntry v.conf (v.htableChunkCache c) e
  let nhentry := chunkEntry v.conf nchk e
  let feed : Except Fault (Option HtableEl × Vol) := do
    let (el, bt) ← shfsBtableFeed v.bt (c * v.conf.htableNbEntriesPerChunk + e) nhentry
    let v := { v with bt := bt }
    return (some el, v.setBentry el { v.bentry el with update := true })
  if hashCompare chentry nhentry v.conf.hlen then
    let chashIsZero := hashIsZero chentry v.conf.hlen
    let nhashIsZero := hashIsZero nhentry v.conf.hlen
    -- process only if at least one digest is not zero
    if !chashIsZero || !nhashIsZero then feed else .ok (none, v)
  else feed

/-- The entry loop behind `down`: overwrite the cached entry, unlock, and update the reference to the
default entry. -/
def reloadUpdate (v : Vol) (c e : Nat) (nchk : Bytes) (el : HtableEl) : Vol :=
  let nhentry := chunkEntry v.conf nchk e
  let off := shfsHtableEntryOffset e v.conf.htableNbEntriesPerChunk
  let chk := putHentry (v.htableChunkCache c) off nhentry
  let v := { v with htableChunkCache := Function.update v.htableChunkCache c chk }
  let v := v.setBentry el
    { v.bentry el with updatelock := (v.bentry el).updatelock + 1, update := false }
  if v.defBentry = some el ∧ nhentry.isDefault = false then { v with defBentry := none }
  else if nhentry.isDefault then { v with defBentry := some el } else v

section ReloadUpdate

variable (v : Vol) (c e : Nat) (nchk : Bytes) (el : HtableEl)

/-- The fields behind an update. -/
theorem reloadUpdate_eq : reloadUpdate v c e nchk el =
    { conf := v.conf
      bt := v.bt
      htableChunkCache := Function.update v.htableChunkCache c (putHentry (v.htableChunkCache c)
        (shfsHtableEntryOffset e v.conf.htableNbEntriesPerChunk) (chunkEntry v.conf nchk e))
      bentry := Function.update v.bentry el
        { v.bentry el with updatelock := (v.bentry el).updatelock + 1, update := false }
      defBentry := if (chunkEntry v.conf nchk e).isDefault then some el
        else if v.defBentry = some el then none else v.defBentry } := by
  unfold reloadUpdate
  by_cases hd : (chunkEntry v.conf nchk e).isDefault = true
  · simp [hd, Vol.setBentry]
  · by_cases hv : v.defBentry = some el <;> simp [hd, hv, Vol.setBentry]

@[simp] theorem reloadUpdate_conf : (reloadUpdate v c e nchk el).conf = v.conf := by
  rw [reloadUpdate_eq]

@[simp] theorem reloadUpdate_bt : (reloadUpdate v c e nchk el).bt = v.bt := by
  rw [reloadUpdate_eq]

@[simp] theorem reloadUpdate_slot (i : Nat) :
    (reloadUpdate v c e nchk el).slot i = v.slot i := by
  rw [reloadUpdate_eq]
  rfl

theorem reloadUpdate_chunkCache : (reloadUpdate v c e nchk el).htableChunkCache =
    Function.update v.htableChunkCache c (putHentry (v.htableChunkCache c)
      (shfsHtableEntryOffset e v.conf.htableNbEntriesPerChunk) (chunkEntry v.conf nchk e)) := by
  rw [reloadUpdate_eq]

theorem reloadUpdate_defBentry : (reloadUpdate v c e nchk el).defBentry =
    if (chunkEntry v.conf nchk e).isDefault then some el
      else if v.defBentry = some el then none else v.defBentry := by
  rw [reloadUpdate_eq]

end ReloadUpdate

/-- Every entry is fed. -/
theorem reloadEntry_eq (v : Vol) (c e : Nat) (nchk : Bytes) :
    reloadEntry v c e nchk =
      (shfsBtableFeed v.bt (c * v.conf.htableNbEntriesPerChunk + e) (chunkEntry v.conf nchk e)).map
        fun r => (some r.1, { v with bt := r.2 }.setBentry r.1
          { v.bentry r.1 with update := true }) := by
  have hne : hashCompare (chunkEntry v.conf (v.htableChunkCache c) e) (chunkEntry v.conf nchk e)
      v.conf.hlen = true →
      (!hashIsZero (chunkEntry v.conf (v.htableChunkCache c) e) v.conf.hlen ||
        !hashIsZero (chunkEntry v.conf nchk e) v.conf.hlen) = true := by
    intro hd
    by_contra hz
    simp only [Bool.or_eq_true, Bool.not_eq_true', not_or, Bool.not_eq_false] at hz
    have hsame : SameHash v.conf.hlen (chunkEntry v.conf (v.htableChunkCache c) e)
        (chunkEntry v.conf nchk e) := fun i hi => by
      rw [hashIsZero_iff.1 hz.1 i hi, hashIsZero_iff.1 hz.2 i hi]
    rw [hashCompare_eq_false.2 hsame] at hd
    exact Bool.false_ne_true hd
  have hfeed : ∀ r : Except Fault (HtableEl × Htable),
      (do let (el, bt) ← r
          let v := { v with bt := bt }
          return (some el, v.setBentry el { v.bentry el with update := true })) =
        r.map fun r => (some r.1, { v with bt := r.2 }.setBentry r.1
          { v.bentry r.1 with update := true }) := by
    intro r
    cases r <;> rfl
  unfold reloadEntry
  simp only [hfeed]
  by_cases hd : hashCompare (chunkEntry v.conf (v.htableChunkCache c) e) (chunkEntry v.conf nchk e)
      v.conf.hlen = true
  · rw [if_pos hd, if_pos (hne hd)]
  · rw [if_neg hd]

/-! ## The cached entries -/

/-- The numbers of the entries of a chunk. -/
theorem tableEntry_chunk (conf : VolConf) (chk : Nat → Bytes) {c e : Nat}
    (he : e < conf.htableNbEntriesPerChunk) :
    tableEntry conf chk (c * conf.htableNbEntriesPerChunk + e) = chunkEntry conf (chk c) e := by
  have hp := conf.entriesPerChunk_pos
  have hdiv : (c * conf.htableNbEntriesPerChunk + e) / conf.htableNbEntriesPerChunk = c := by
    rw [Nat.mul_comm, Nat.mul_add_div hp, Nat.div_eq_of_lt he, Nat.add_zero]
  have hmod : (c * conf.htableNbEntriesPerChunk + e) % conf.htableNbEntriesPerChunk =
      e % conf.htableNbEntriesPerChunk := by
    rw [Nat.mul_comm, Nat.mul_add_mod]
  unfold tableEntry chunkEntry shfsHtableChunkNo shfsHtableEntryOffset
  rw [hdiv, hmod]

/-- An update overwrites its own entry. -/
theorem reloadUpdate_entry {v : Vol} {c e : Nat} {nchk : Bytes} {el : HtableEl}
    (he : e < v.conf.htableNbEntriesPerChunk) :
    SameHentry (tableEntry v.conf (reloadUpdate v c e nchk el).htableChunkCache
      (c * v.conf.htableNbEntriesPerChunk + e)) (chunkEntry v.conf nchk e) := by
  rw [tableEntry_chunk v.conf _ he, reloadUpdate_chunkCache, Function.update_self]
  exact putHentry_same _ _ _

/-- An update leaves every other entry alone. -/
theorem reloadUpdate_frame {v : Vol} {c e j : Nat} {nchk : Bytes} {el : HtableEl}
    (he : e < v.conf.htableNbEntriesPerChunk) (hj : j ≠ c * v.conf.htableNbEntriesPerChunk + e) :
    SameHentry (tableEntry v.conf (reloadUpdate v c e nchk el).htableChunkCache j)
      (tableEntry v.conf v.htableChunkCache j) := by
  have hdiv := Nat.div_add_mod' j v.conf.htableNbEntriesPerChunk
  unfold tableEntry shfsHtableChunkNo
  rw [reloadUpdate_chunkCache]
  by_cases hc : j / v.conf.htableNbEntriesPerChunk = c
  · rw [hc, Function.update_self]
    refine putHentry_frame _ fun heq => hj ?_
    rw [← hdiv, hc, ← heq, Nat.mod_eq_of_lt he]
  · rw [Function.update_of_ne hc]
    exact SameHentry.refl _

end Minipython.Shfs
