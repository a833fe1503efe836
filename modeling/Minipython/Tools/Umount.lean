/-
# Minipython.Tools.Umount — what umount_shfs writes (shfs_admin.c)

`umount_shfs` goes through the chunks of the table in order and writes those that are marked, each to
the table and then to its backup. A write that fails ends it, so the members are left with the new
bytes up to some point of the table and with the old ones behind (`umount_cut`). The point is the end of
a stripe, and so it does not cut an entry in two (`umount_entries`).

A write that is cut short is no error to `umount_shfs`: it goes on with the next stripe. So these two results
need complete transfers, and the others do not: whatever the transfers return, no chunk is written but those of
the table and its backup (`umount_frame`).
-/
import Minipython.Tools.Guard

namespace Minipython.Tools.Admin

open Minipython.Lib
open Minipython.Shfs
open Htable

namespace Volume

variable (V : Volume) {i : Nat}

/-- The chunk `i` of the backup. -/
def bakChunk (i : Nat) : Nat := wrap64 (V.htableBakRef + i)

theorem bakChunk_eq (hb : V.backup = true) (hi : i < V.htableLen) :
    V.bakChunk i = 2 + V.htableLen + i := by
  have hle := V.tables_le
  have hlt := V.volsize_lt
  rw [V.htableLen_eq, hb, if_pos rfl] at hle
  unfold bakChunk
  rw [V.htableBakRef_eq, hb, if_pos rfl]
  apply wrap64_of_lt
  omega

theorem bakChunk_lt (hb : V.backup = true) (hi : i < V.htableLen) : V.bakChunk i < V.tablesEnd := by
  rw [V.bakChunk_eq hb hi]
  unfold tablesEnd
  rw [hb, if_pos rfl]
  omega

theorem fits_of_lt_tablesEnd {c : Nat} (hc : c < V.tablesEnd) : V.g.Fits c 1 :=
  V.fits c (Nat.lt_of_lt_of_le hc V.tablesEnd_le)

theorem htableChunk_ne_bak {j : Nat} (hb : V.backup = true) (hi : i < V.htableLen)
    (hj : j < V.htableLen) : V.conf.htableChunk i ≠ V.bakChunk j := by
  rw [V.htableChunk_eq hi, V.bakChunk_eq hb hj]
  omega

theorem bakChunk_inj {j : Nat} (hb : V.backup = true) (hi : i < V.htableLen) (hj : j < V.htableLen)
    (h : V.bakChunk i = V.bakChunk j) : i = j := by
  rw [V.bakChunk_eq hb hi, V.bakChunk_eq hb hj] at h
  omega

theorem htableBakRef_ne : V.htableBakRef ≠ 0 ↔ V.backup = true := by
  rw [V.htableBakRef_eq]
  cases V.backup with
  | false => exact ⟨fun h => absurd rfl h, fun h => by cases h⟩
  | true =>
      refine ⟨fun _ => rfl, fun _ => ?_⟩
      rw [if_pos rfl]
      omega

/-- A chunk is made of whole stripes. -/
theorem chunksize_eq : V.chunksize = V.g.perChunk * V.g.stripesize := V.chunkLen_eq.symm

end Volume

/-! ## One chunk -/

section Chunk

variable {V : Volume} {env : UmountEnv} {v : VolInfo} {d d₁ : Members} {i : Nat} {ok : Bool}

/-- A turn keeps what writes to its chunks keep. -/
theorem umountChunk_frame {R : Members → Members → Prop}
    (hR : Frame V.g (fun c => c = V.conf.htableChunk i ∨ V.backup = true ∧ c = V.bakChunk i) R)
    (hi : i < V.htableLen) (h : umountChunk V env v d i = (ok, d₁)) : R d d₁ := by
  unfold umountChunk at h
  split at h
  · split at h
    · rename_i hw
      obtain ⟨-, rfl⟩ := Prod.mk.inj h
      exact hR.write _ _ (.inl rfl) (V.fits_table hi) hw
    · rename_i d₂ hw
      have hd₂ : R d d₂ := hR.write _ _ (.inl rfl) (V.fits_table hi) hw
      split at h
      · rename_i hb
        have hb := V.htableBakRef_ne.1 hb
        have hfit := V.fits_of_lt_tablesEnd (V.bakChunk_lt hb hi)
        exact hR.trans hd₂ (hR.write _ _ (.inr ⟨hb, rfl⟩) hfit h)
      · obtain ⟨-, rfl⟩ := Prod.mk.inj h
        exact hd₂
  · obtain ⟨-, rfl⟩ := Prod.mk.inj h
    exact hR.refl _

/-- A turn leaves the chunks alone that are not its own. -/
theorem umountChunk_other (hi : i < V.htableLen) (h : umountChunk V env v d i = (ok, d₁)) {c' : Nat}
    (hfit : V.g.Fits c' 1) (hne : c' ≠ V.conf.htableChunk i)
    (hbak : V.backup = true → c' ≠ V.bakChunk i) : SameAt V.g d₁ d c' := by
  refine umountChunk_frame (Frame.mono (sameAt_frame hfit) ?_) hi h
  rintro c (rfl | ⟨hb, rfl⟩)
  · exact hne
  · exact hbak hb

/-- Some stripes of its chunk of the table are written, all of them if the turn succeeds. -/
theorem umountChunk_table (hio : env.Complete) (hi : i < V.htableLen) (h : umountChunk V env v d i = (ok, d₁)) :
    ∃ n ≤ V.g.perChunk, (ok = true → n = V.g.perChunk) ∧ ∀ k < V.chunksize,
      chunkAt V.g d₁ (V.conf.htableChunk i) k =
        if v.htableChunkCacheState i = true ∧ k / V.g.stripesize < n then v.htableChunkCache i k
        else chunkAt V.g d (V.conf.htableChunk i) k := by
  unfold umountChunk at h
  split at h
  · rename_i hstate
    obtain ⟨n, hn, hok, hat⟩ :=
      writeChunk_spec (V.fits_table hi) d (v.htableChunkCache i) (hio i).1
    have htab : ∀ d₂, (syncWriteChunk V.g d (V.conf.htableChunk i) 1 (v.htableChunkCache i)
        (env.io i)).2 = d₂ → ∀ k < V.chunksize, chunkAt V.g d₂ (V.conf.htableChunk i) k =
          if v.htableChunkCacheState i = true ∧ k / V.g.stripesize < n then v.htableChunkCache i k
          else chunkAt V.g d (V.conf.htableChunk i) k := by
      rintro d₂ rfl k hk
      rw [hat _ k (V.fits_table hi) (by rw [V.chunkLen_eq]; exact hk), hstate]
      simp only [true_and]
    split at h
    · rename_i hw
      obtain ⟨rfl, rfl⟩ := Prod.mk.inj h
      exact ⟨n, hn, (fun hf => by cases hf), htab _ (congrArg Prod.snd hw)⟩
    · rename_i d₂ hw
      refine ⟨n, hn, fun _ => hok (congrArg Prod.fst hw), fun k hk => ?_⟩
      rw [← htab d₂ (congrArg Prod.snd hw) k hk]
      split at h
      · -- the backup has other chunks
        rename_i hb
        have hb := V.htableBakRef_ne.1 hb
        have hsame : SameAt V.g d₁ d₂ (V.conf.htableChunk i) :=
          write_other (V.fits_of_lt_tablesEnd (V.bakChunk_lt hb hi)) (V.fits_table hi)
            (V.htableChunk_ne_bak hb hi hi) h
        exact hsame k (by rw [V.chunkLen_eq]; exact hk)
      · obtain ⟨-, rfl⟩ := Prod.mk.inj h
        rfl
  · rename_i hstate
    obtain ⟨-, rfl⟩ := Prod.mk.inj h
    refine ⟨V.g.perChunk, Nat.le_refl _, fun _ => rfl, fun k _ => ?_⟩
    rw [if_neg fun hc => hstate hc.1]

/-- A turn that succeeds writes the chunk to the backup as well. -/
theorem umountChunk_backup (hio : env.Complete) (hb : V.backup = true) (hi : i < V.htableLen)
    (h : umountChunk V env v d i = (true, d₁)) {k : Nat} (hk : k < V.chunksize) :
    chunkAt V.g d₁ (V.bakChunk i) k =
      if v.htableChunkCacheState i = true then v.htableChunkCache i k
      else chunkAt V.g d (V.bakChunk i) k := by
  unfold umountChunk at h
  split at h
  · rename_i hstate
    rw [if_pos hstate]
    split at h
    · cases (Prod.mk.inj h).1
    · rw [if_pos (V.htableBakRef_ne.2 hb)] at h
      have hsame := @writeChunk_same V.g _ (V.bakChunk i) k (v.htableChunkCache i) (env.bakIo i)
        (V.fits_of_lt_tablesEnd (V.bakChunk_lt hb hi)) (hio i).2 (congrArg Prod.fst h)
        (by rw [V.chunkLen_eq]; exact hk)
      rw [← hsame]
      exact congrArg (fun d => chunkAt V.g d (V.bakChunk i) k) (congrArg Prod.snd h).symm
  · rename_i hstate
    obtain ⟨-, rfl⟩ := Prod.mk.inj h
    rw [if_neg hstate]

end Chunk

/-! ## The loop -/

section Loop

variable {V : Volume} {env : UmountEnv} {v : VolInfo} {d d' : Members} {ok : Bool}

/-- The loop from the chunk `m` on, by induction on the chunks left. -/
theorem umountFrom_cut (hio : env.Complete) {n m : Nat} (hm : m + n = V.htableLen)
    (h : umountFrom V env v (List.range' m n) d = (ok, d')) :
    ∃ cut, m * V.chunksize ≤ cut ∧ V.g.stripesize ∣ cut ∧ (ok = true → cut = V.htableLen * V.chunksize) ∧
      ∀ c < V.htableLen, ∀ k < V.chunksize, chunkAt V.g d' (V.conf.htableChunk c) k =
        if v.htableChunkCacheState c = true ∧ m ≤ c ∧ c * V.chunksize + k < cut then
          v.htableChunkCache c k
        else chunkAt V.g d (V.conf.htableChunk c) k := by
  have hdvd : ∀ x, V.g.stripesize ∣ x * V.chunksize := fun x => by
    rw [V.chunksize_eq]
    exact Dvd.dvd.mul_left (Dvd.intro_left _ rfl) x
  induction n generalizing m d with
  | zero =>
      obtain ⟨-, rfl⟩ := Prod.mk.inj h
      refine ⟨m * V.chunksize, Nat.le_refl _, hdvd m, fun _ => by rw [← hm, Nat.add_zero], ?_⟩
      intro c hc k _
      rw [if_neg]
      omega
  | succ n ih =>
      have hi : m < V.htableLen := by omega
      rw [List.range'_succ, umountFrom] at h
      split at h
      · -- the turn fails
        rename_i d₁ hturn
        obtain ⟨rfl, rfl⟩ := Prod.mk.inj h
        obtain ⟨t, ht, -, hat⟩ := umountChunk_table hio hi hturn
        refine ⟨m * V.chunksize + t * V.g.stripesize, Nat.le_add_right _ _,
          Nat.dvd_add (hdvd m) (Dvd.intro_left _ rfl), (fun hf => by cases hf), fun c hc k hk => ?_⟩
        have hfull : t * V.g.stripesize ≤ V.chunksize := by
          rw [V.chunksize_eq]
          exact Nat.mul_le_mul_right _ ht
        by_cases hcm : c = m
        · rw [hcm, hat k hk]
          congr 1
          rw [Nat.div_lt_iff_lt_mul V.g.stripesize_pos]
          simp only [eq_iff_iff]
          constructor
          · exact fun hs => ⟨hs.1, Nat.le_refl m, by omega⟩
          · exact fun hs => ⟨hs.1, by omega⟩
        · have hother : SameAt V.g d₁ d (V.conf.htableChunk c) :=
            umountChunk_other hi hturn (V.fits_table hc) (fun heq => hcm (V.htableChunk_inj hc hi heq))
              fun hb => V.htableChunk_ne_bak hb hc hi
          rw [hother k (by rw [V.chunkLen_eq]; exact hk), if_neg]
          rintro ⟨-, hle, hlt⟩
          have hmul := Nat.mul_le_mul_right V.chunksize (by omega : m + 1 ≤ c)
          rw [Nat.succ_mul] at hmul
          omega
      · rename_i d₁ hturn
        obtain ⟨cut, hlo, hcut, hok, hrest⟩ := ih (by omega) h
        obtain ⟨t, -, htok, hat⟩ := umountChunk_table hio hi hturn
        rw [Nat.succ_mul] at hlo
        refine ⟨cut, by omega, hcut, hok, fun c hc k hk => ?_⟩
        rw [hrest c hc k hk]
        by_cases hcm : c = m
        · -- this chunk was written by the turn
          have hlast : k / V.g.stripesize < t := by
            rw [htok rfl, Nat.div_lt_iff_lt_mul V.g.stripesize_pos, ← V.chunksize_eq]
            exact hk
          rw [hcm, if_neg (by omega), hat k hk]
          congr 1
          simp only [eq_iff_iff]
          constructor
          · exact fun hs => ⟨hs.1, Nat.le_refl m, by omega⟩
          · exact fun hs => ⟨hs.1, hlast⟩
        · have hother : SameAt V.g d₁ d (V.conf.htableChunk c) :=
            umountChunk_other hi hturn (V.fits_table hc) (fun heq => hcm (V.htableChunk_inj hc hi heq))
              fun hb => V.htableChunk_ne_bak hb hc hi
          rw [hother k (by rw [V.chunkLen_eq]; exact hk)]
          congr 1
          simp only [eq_iff_iff]
          constructor
          · exact fun hs => ⟨hs.1, Nat.le_of_succ_le hs.2.1, hs.2.2⟩
          · exact fun hs => ⟨hs.1, by omega, hs.2.2⟩

/-- What `umount_shfs` leaves in the chunks of the table. -/
theorem umount_cut (hio : env.Complete) (h : umountShfs V env v d = (ok, d')) :
    ∃ cut, V.g.stripesize ∣ cut ∧ (ok = true → cut = V.htableLen * V.chunksize) ∧
      ∀ c < V.htableLen, ∀ k < V.chunksize, chunkAt V.g d' (V.conf.htableChunk c) k =
        if v.htableChunkCacheState c = true ∧ c * V.chunksize + k < cut then v.htableChunkCache c k
        else chunkAt V.g d (V.conf.htableChunk c) k := by
  unfold umountShfs at h
  rw [List.range_eq_range'] at h
  obtain ⟨cut, -, hdvd, hok, hat⟩ := umountFrom_cut hio (Nat.zero_add _) h
  refine ⟨cut, hdvd, hok, fun c hc k hk => ?_⟩
  rw [hat c hc k hk]
  simp only [Nat.zero_le, true_and]

/-- The loop keeps what writes to the tables keep. -/
theorem umountFrom_frame {R : Members → Members → Prop}
    (hR : Frame V.g (fun c => 2 ≤ c ∧ c < V.tablesEnd) R) {is : List Nat}
    (his : ∀ i ∈ is, i < V.htableLen) (h : umountFrom V env v is d = (ok, d')) : R d d' := by
  induction is generalizing d with
  | nil =>
      obtain ⟨-, rfl⟩ := Prod.mk.inj h
      exact hR.refl _
  | cons i is ih =>
      have hi := his i List.mem_cons_self
      have hturns : Frame V.g (fun c => c = V.conf.htableChunk i ∨ V.backup = true ∧ c = V.bakChunk i) R := by
        refine hR.mono ?_
        rintro c (rfl | ⟨hb, rfl⟩)
        · refine ⟨?_, V.htableChunk_lt hi⟩
          rw [V.htableChunk_eq hi]
          omega
        · refine ⟨?_, V.bakChunk_lt hb hi⟩
          rw [V.bakChunk_eq hb hi]
          omega
      rw [umountFrom] at h
      split at h
      · rename_i hturn
        obtain ⟨-, rfl⟩ := Prod.mk.inj h
        exact umountChunk_frame hturns hi hturn
      · rename_i d₁ hturn
        exact hR.trans (umountChunk_frame hturns hi hturn)
          (ih (fun j hj => his j (List.mem_cons_of_mem i hj)) h)

/-- `umount_shfs` keeps it as well. -/
theorem umount_frame {R : Members → Members → Prop}
    (hR : Frame V.g (fun c => 2 ≤ c ∧ c < V.tablesEnd) R) (h : umountShfs V env v d = (ok, d')) :
    R d d' :=
  umountFrom_frame hR (fun _ hi => List.mem_range.1 hi) h

/-- `umount_shfs` writes to no chunk behind the tables. -/
theorem umount_behind (h : umountShfs V env v d = (ok, d')) {c' : Nat} (hfit : V.g.Fits c' 1)
    (hlt : V.tablesEnd ≤ c') : SameAt V.g d' d c' := by
  refine umount_frame (Frame.mono (sameAt_frame hfit) ?_) h
  rintro c ⟨-, hc⟩
  omega

/-- What a loop that succeeds leaves in the chunks of the backup. -/
theorem umountFrom_backup (hio : env.Complete) (hb : V.backup = true) {n m : Nat} (hm : m + n = V.htableLen)
    (h : umountFrom V env v (List.range' m n) d = (true, d')) {c k : Nat} (hc : c < V.htableLen)
    (hk : k < V.chunksize) : chunkAt V.g d' (V.bakChunk c) k =
      if v.htableChunkCacheState c = true ∧ m ≤ c then v.htableChunkCache c k
      else chunkAt V.g d (V.bakChunk c) k := by
  induction n generalizing m d with
  | zero =>
      obtain ⟨-, rfl⟩ := Prod.mk.inj h
      rw [if_neg]
      omega
  | succ n ih =>
      have hi : m < V.htableLen := by omega
      rw [List.range'_succ, umountFrom] at h
      split at h
      · cases (Prod.mk.inj h).1
      · rename_i d₁ hturn
        rw [ih (by omega) h]
        by_cases hcm : c = m
        · rw [hcm, if_neg (by omega), umountChunk_backup hio hb hi hturn hk]
          congr 1
          simp only [eq_iff_iff]
          exact ⟨fun hs => ⟨hs, Nat.le_refl m⟩, fun hs => hs.1⟩
        · have hother : SameAt V.g d₁ d (V.bakChunk c) :=
            umountChunk_other hi hturn (V.fits_of_lt_tablesEnd (V.bakChunk_lt hb hc))
              (V.htableChunk_ne_bak hb hi hc).symm fun _ heq => hcm (V.bakChunk_inj hb hc hi heq)
          rw [hother k (by rw [V.chunkLen_eq]; exact hk)]
          congr 1
          simp only [eq_iff_iff]
          constructor
          · exact fun hs => ⟨hs.1, Nat.le_of_succ_le hs.2⟩
          · exact fun hs => ⟨hs.1, by omega⟩

/-- What `umount_shfs` leaves in the chunks of the backup. -/
theorem umount_backup (hio : env.Complete) (hb : V.backup = true) (h : umountShfs V env v d = (true, d')) {c k : Nat}
    (hc : c < V.htableLen) (hk : k < V.chunksize) : chunkAt V.g d' (V.bakChunk c) k =
      if v.htableChunkCacheState c = true then v.htableChunkCache c k
      else chunkAt V.g d (V.bakChunk c) k := by
  unfold umountShfs at h
  rw [List.range_eq_range'] at h
  rw [umountFrom_backup hio hb (Nat.zero_add _) h hc hk]
  simp only [Nat.zero_le, and_true]

/-! ## Entries -/

/-- An entry lies in one stripe. -/
theorem entry_stripe (i : Nat) {k : Nat} (hk : k < sizeofHentry) {cut : Nat} (hdvd : V.g.stripesize ∣ cut) :
    shfsHtableChunkNo i V.conf.htableNbEntriesPerChunk * V.chunksize +
        (shfsHtableEntryOffset i V.conf.htableNbEntriesPerChunk + k) < cut ↔
      i < cut / shfsHentrySize := by
  have hsize : shfsHentrySize ∣ V.g.stripesize := by
    obtain ⟨j, hj, -, hpow⟩ := V.g.stripesize_pow
    rw [hpow]
    exact Nat.pow_dvd_pow 2 (by omega : 8 ≤ j)
  obtain ⟨q, rfl⟩ := Dvd.dvd.trans hsize hdvd
  have hchunk : V.conf.htableNbEntriesPerChunk * shfsHentrySize = V.chunksize := by
    apply Nat.div_mul_cancel
    show shfsHentrySize ∣ V.chunksize
    rw [V.chunksize_eq]
    exact Dvd.dvd.mul_left hsize _
  have hpos : shfsHtableChunkNo i V.conf.htableNbEntriesPerChunk * V.chunksize +
      shfsHtableEntryOffset i V.conf.htableNbEntriesPerChunk = i * shfsHentrySize := by
    unfold shfsHtableChunkNo shfsHtableEntryOffset
    rw [← hchunk, ← Nat.mul_assoc, ← Nat.add_mul, Nat.div_add_mod']
  rw [← Nat.add_assoc, hpos, Nat.mul_div_cancel_left q (by decide)]
  unfold sizeofHentry at hk
  unfold shfsHentrySize
  omega

/-- What `umount_shfs` leaves of the table, entry by entry: the entries up to some number are those in
memory where their chunk is marked, and all others are as before. -/
theorem umount_entries (hio : env.Complete) (h : umountShfs V env v d = (ok, d')) :
    ∃ cut, (ok = true → V.conf.htableNbEntries ≤ cut) ∧ ∀ i < V.conf.htableNbEntries,
      SameHentry (V.diskEntry d' i)
        (if v.htableChunkCacheState (shfsHtableChunkNo i V.conf.htableNbEntriesPerChunk) = true ∧ i < cut
          then tableEntry V.conf v.htableChunkCache i else V.diskEntry d i) := by
  obtain ⟨cut, hdvd, hok, hat⟩ := umount_cut hio h
  have hbyte : ∀ i < V.conf.htableNbEntries, ∀ k < sizeofHentry,
      shfsHtableEntryOffset i V.conf.htableNbEntriesPerChunk + k < V.chunksize := fun i _ k hk => by
    have hend := V.entry_end i
    unfold sizeofHentry at hk
    unfold shfsHentrySize at hend
    omega
  refine ⟨cut / shfsHentrySize, fun htrue => ?_, fun i hi k hk => ?_⟩
  · -- the last entry lies in front of the cut
    rw [hok htrue]
    by_contra hlt
    have hlt := Nat.lt_of_not_le hlt
    have hno := (not_congr (@entry_stripe V _ 0 (by decide) _ hdvd)).2 (Nat.lt_irrefl (cut / shfsHentrySize))
    have hn := V.chunkNo_lt hlt
    have hmul := Nat.mul_le_mul_right V.chunksize hn
    rw [Nat.succ_mul] at hmul
    rw [hok htrue] at hno
    have hb := hbyte _ hlt 0 (by decide)
    omega
  · have hb := hbyte i hi k hk
    have hstripe := entry_stripe (V := V) i hk hdvd
    have hdisk : V.diskEntry d' i k = _ := hat _ (V.chunkNo_lt hi) _ hb
    rw [hdisk]
    simp only [hstripe]
    split
    · rfl
    · rfl

end Loop

end Minipython.Tools.Admin
