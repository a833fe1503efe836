/-
# Minipython.Tools.Coherence — memory and disk between a mount and an unmount (shfs_admin.c)

A session changes the bucket table, the cached entries and the marks of the chunks in separate
statements, and only the marked chunks are written in the end. `session_coherent` is what holds between
any two tokens: the digests of the bucket table are those of the entries, and a chunk that differs from
the disk is marked. So an unmount without an error leaves on disk what was in memory, for the table and
for its backup.

All of it is about transfers of the table that move as many bytes as were asked for, or fail. The tools test every
`read` and `write` for an error and none for its count, so one that returns early goes unnoticed:
`umount_short_write` is an unmount that returns without an error while the name of a new entry has not
reached the disk. So the runs are those whose mounts read and whose unmounts write the whole table
(`Event.TableComplete`; the copy of a file may be cut short), and `InStep` asks the same of the unmount and
of the mount that it speaks of.
-/
import Minipython.Tools.Sessions

namespace Minipython.Tools.Admin

open Minipython.Lib
open Minipython.Shfs
open Htable

section Umounted

variable {V : Volume} {v w : VolInfo} {d d' : Members} {env : UmountEnv}

/-- Behind an unmount without an error the entries on disk are those in memory. -/
theorem Good.umounted (h : Good V v d) (hio : env.Complete)
    (hu : umountShfs V env v d = (true, d')) {i : Nat} (hi : i < V.conf.htableNbEntries) : SameHentry (V.diskEntry d' i) (V.memEntry v i) := by
  obtain ⟨cut, hcut, hent⟩ := umount_entries hio hu
  have hle := hcut rfl
  have hi' := hent i hi
  split at hi'
  · exact hi'
  · rename_i hno
    -- the chunk is not marked, so the entry on disk was the same before
    have hstate : v.htableChunkCacheState (shfsHtableChunkNo i V.conf.htableNbEntriesPerChunk) = false := by
      rw [← Bool.not_eq_true]
      exact fun hs => hno ⟨hs, by omega⟩
    refine hi'.trans fun k hk => ?_
    exact (h.coherent _ (V.chunkNo_lt hi) hstate _ (V.entry_byte i hk)).symm

/-- Two volumes with the same entries have the same lookups. -/
theorem lookup_congr (hv : Table V v) (hw : Table V w)
    (hsame : ∀ i < V.conf.htableNbEntries, SameHentry (w.hentry (w.slot i)) (v.hentry (v.slot i)))
    (hash : Hash512) : shfsBtableLookup w.bt hash = shfsBtableLookup v.bt hash := by
  have hg : SameGeom v.bt w.bt :=
    ⟨hw.nbBkts.trans hv.nbBkts.symm, hw.elPerBkt.trans hv.elPerBkt.symm, hw.hlen.trans hv.hlen.symm⟩
  apply htableLookup_congr hg _ (SameHash.refl hash) hv.nbBkts_pos
  intro el hel
  obtain ⟨i, hi, rfl⟩ := hv.exists_slot hel
  have hslot : w.slot i = v.slot i := hg.slot i
  have hdig := hw.digest i hi
  have hent := hsame i hi
  rw [hslot] at hdig hent
  rw [hv.hlen]
  have hold := (hv.digest i hi).symm
  exact (hdig.trans (hent.sameHash V.hlen_le)).trans hold

end Umounted

/-! ## Sessions -/

/-- The backup of the table, if there is one, has the bytes of the table. -/
def BackupEqual (V : Volume) (d : Members) : Prop :=
  V.backup = true → ∀ c < V.htableLen, ∀ k < V.chunksize,
    chunkAt V.g d (V.bakChunk c) k = chunkAt V.g d (V.conf.htableChunk c) k

/-- Memory and disk are in step: the digest in a slot is that of its entry, and a chunk that differs
from the disk is marked. Behind an unmount without an error, a mount finds the same digests and entries,
and a backup that was equal to the table is so again. -/
structure InStep (V : Volume) (v : VolInfo) (d : Members) : Prop where
  digest : ∀ i < V.conf.htableNbEntries, SameHash V.hlen (v.bt.h (v.slot i)) (v.hentry (v.slot i))
  marked : ∀ c < V.htableLen, (∃ k < V.chunksize,
    v.htableChunkCache c k ≠ chunkAt V.g d (V.conf.htableChunk c) k) → v.htableChunkCacheState c = true
  remount : ∀ env d', env.Complete → umountShfs V env v d = (true, d') →
    ∀ menv w, menv.Complete → mountShfs V menv d' = .ok w →
      (∀ hash, shfsBtableLookup w.bt hash = shfsBtableLookup v.bt hash) ∧
        ∀ i < V.conf.htableNbEntries, SameHentry (w.hentry (w.slot i)) (v.hentry (v.slot i))
  backup : ∀ env d', env.Complete → umountShfs V env v d = (true, d') → BackupEqual V d → BackupEqual V d'

/-- What the invariant of sessions says about memory and disk. -/
theorem Good.inStep {V : Volume} {v : VolInfo} {d : Members} (h : Good V v d) : InStep V v d where
  digest := h.table.digest
  marked := by
    rintro c hc ⟨k, hk, hne⟩
    by_contra hstate
    apply hne
    exact h.coherent c hc (by simpa using hstate) k hk
  remount := by
    intro env d' hio hu menv w hmio hm
    have hw := (mountShfs_spec hmio hm).1
    have hsame : ∀ i < V.conf.htableNbEntries,
        SameHentry (w.hentry (w.slot i)) (v.hentry (v.slot i)) := fun i hi => by
      rw [h.table.hentry_eq hi]
      exact (hw.entry hi).trans (h.umounted hio hu hi)
    exact ⟨lookup_congr h.table hw.table hsame, hsame⟩
  backup := by
    intro env d' hio hu heq hb c hc k hk
    obtain ⟨cut, -, hcut, hat⟩ := umount_cut hio hu
    have hlt : c * V.chunksize + k < cut := by
      have hmul := Nat.mul_le_mul_right V.chunksize (Nat.succ_le_of_lt hc)
      rw [Nat.succ_mul] at hmul
      rw [hcut rfl]
      omega
    rw [umount_backup hio hb hu hc hk, hat c hc k hk, heq hb c hc k hk]
    simp only [hlt, and_true]

/-- Between any two tokens memory and disk are in step. The session may be the first on a new volume, or a
later one if the ranges that mounts register for links lie behind the tables. In step are the digests in the
slots with their entries, and the chunks that differ from the disk with their marks; so an unmount that
writes them without an error leaves what a mount then finds, the backup included. -/
theorem session_coherent {V : Volume} {lib : MhashLib} {d₀ : Members} {es : List Event} {s : Sys}
    {v : VolInfo} {c : Bool} (hd₀ : Formatted V d₀)
    (hrun : ((anySessions V lib).restrict fun s e => e.TableComplete ∧ (s.disk = d₀ ∨ MountOk V s e)).Run
      ⟨d₀, none⟩ es s) (hs : s.session = some (v, c)) : InStep V v s.disk := by
  have hok : s.Ok V := by
    apply hrun.invariant (I := Sys.Ok V) _ hd₀.ok
    intro s e t hs hstep
    obtain ⟨hstep, hio, hgood⟩ := Machine.restrict_step.1 hstep
    refine ok_step hs ?_ hio hstep
    obtain heq | hgood := hgood
    · -- the volume is as it was formatted
      cases e with
      | mount env =>
          show LinksBehind V s.disk
          rw [heq]
          exact hd₀.linksBehind
      | token a => trivial
      | umount env => trivial
    · exact hgood
  exact (hok.session v c hs).inStep

/-- On a new volume a first session meets no condition but that its mount reads the whole table. -/
theorem first_session {V : Volume} {lib : MhashLib} {d₀ : Members} {env : MountEnv}
    {as : List Action} {s : Sys} (hio : env.Complete)
    (h : (anySessions V lib).Run ⟨d₀, none⟩ (.mount env :: as.map .token) s) :
    ((anySessions V lib).restrict fun s e => e.TableComplete ∧ (s.disk = d₀ ∨ MountOk V s e)).Run ⟨d₀, none⟩
      (.mount env :: as.map .token) s := by
  cases h with
  | cons h1 h2 =>
      refine .cons (Machine.restrict_step.2 ⟨h1, hio, .inl rfl⟩) (h2.restrict fun e he u => ?_)
      obtain ⟨a, -, rfl⟩ := List.mem_map.1 he
      exact ⟨trivial, .inr trivial⟩

/-- A file is added to a new volume. -/
theorem session_coherent_added : ∃ s v, (anySessions tinyVolume onesLib).Run ⟨fun _ _ => 0, none⟩
      [.mount plainMount, .token (.addObj (plainToken [97]) (plainFile 1 (by decide)))] s ∧
    s.session = some (v, false) ∧ (shfsBtableLookup v.bt fun _ => 1) = some (0, 0) ∧
    InStep tinyVolume v s.disk := by
  have hexec := @Machine.Run.of_exec_any Sys Event Fault (anySessions tinyVolume onesLib) _
    ⟨fun _ _ => 0, none⟩
    [.mount plainMount, .token (.addObj (plainToken [97]) (plainFile 1 (by decide)))]
    (fun s => s.inSession fun v => shfsBtableLookup v.bt (fun _ => 1) == some (0, 0)) (by decide +kernel)
  rcases hexec with ⟨s, hrun, hp⟩
  rcases Sys.inSession_spec hp with ⟨v, hs, hp⟩
  have hfirst := @first_session _ _ _ _ [.addObj (plainToken [97]) (plainFile 1 (by decide))] _
    plainMount_complete hrun
  exact ⟨s, v, hrun, hs, beq_iff_eq.1 hp, session_coherent (fun _ _ _ _ => rfl) hfirst hs⟩

/-- An unmount whose writes return after 100 bytes. -/
def shortUmount : UmountEnv := ⟨fun _ _ => some 100, fun _ _ => some 100⟩

/-- `umount_shfs` tests its writes for errors only: it returns without one, but the name of the new entry is
not on disk, and the next mount finds the entry without it. -/
theorem umount_short_write : ∃ s v d' w, (anySessions tinyVolume onesLib).Run ⟨fun _ _ => 0, none⟩
      [.mount plainMount, .token (.addObj (plainToken [97]) (plainFile 1 (by decide)))] s ∧
    s.session = some (v, false) ∧ umountShfs tinyVolume shortUmount v s.disk = (true, d') ∧
    mountShfs tinyVolume plainMount d' = .ok w ∧
    ¬ SameHentry (w.hentry (w.slot 0)) (v.hentry (v.slot 0)) := by
  have hexec := @Machine.Run.of_exec_any Sys Event Fault (anySessions tinyVolume onesLib) _
    ⟨fun _ _ => 0, none⟩
    [.mount plainMount, .token (.addObj (plainToken [97]) (plainFile 1 (by decide)))]
    (fun s => s.inSession fun v =>
      let r := umountShfs tinyVolume shortUmount v s.disk
      r.1 && (mountShfs tinyVolume plainMount r.2).toOption.any fun w =>
        w.hentry (w.slot 0) Hentry.nameOff != v.hentry (v.slot 0) Hentry.nameOff) (by decide +kernel)
  rcases hexec with ⟨s, hrun, hp⟩
  rcases Sys.inSession_spec hp with ⟨v, hs, hp⟩
  obtain ⟨hok, hp⟩ := Bool.and_eq_true_iff.1 hp
  rcases ok_of_any hp with ⟨w, hw, hne⟩
  refine ⟨s, v, _, w, hrun, hs, Prod.ext hok rfl, hw, fun hsame => ?_⟩
  exact absurd (hsame Hentry.nameOff (by decide)) (by simpa using hne)

end Minipython.Tools.Admin
