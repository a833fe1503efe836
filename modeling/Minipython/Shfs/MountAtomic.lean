/-
# Minipython.Shfs.MountAtomic — a mount that fails (shfs.c, mount_shfs)

A mount should either succeed as a whole or leave nothing behind. `mount_atomic_iff` says when it does.
The ways out that go wrong are those of a failed token pool and of a failed remount buffer, which return
the 0 of the call before, that of a failed table, which keeps the token pool, and that of a data area of
the cache that is missing unnoticed. A label that names a member twice has its device closed twice.

What a mount takes is noted down in the order in which it takes it, and what it gives back as well.
`Settled` says of such a log that everything was given back, once and after it was taken; `Owns` says what
is left over. Each stage has a spec lemma with the resources that it owns when it succeeds, and gives back
all of them when it fails; the stages in one are handled by `owns_stage`. `Atomic` is then about the
outcome: a return value of 0 with the volume mounted and its resources in place, or a negative one with the
log settled and the volume not mounted.

The build is the one of the repository, without `SHFS_STATS`, so that no statistics are set up between the
table and the cache. Every allocation and every read of a device may fail at its own place. A device appears
once in the list that the mount is called with.
-/
import Mathlib.Data.List.TakeWhile
import Minipython.Shfs.MountLabel

namespace Minipython.Shfs.Mount

open Minipython.Lib
open Minipython.Lib.Ledger

variable {env : MountEnv}

/-! ## What the stages keep -/

/-- The parts of a pool that `alloc_enhanced_mempool` could allocate. -/
def poolRes (env : MountEnv) (pool : MountObj) (data : Option MountObj) (ring : MountObj) :
    Set Resource :=
  {r | r = .obj pool ∨ r = .obj ring ∨ ∃ o ∈ data, env.malloc o = true ∧ r = .obj o}

/-- A pool comes with all its parts but perhaps the data area, or not at all. -/
theorem allocEnhancedMempool_spec (env : MountEnv) (pool ring : MountObj) {data : Option MountObj}
    (hne : pool ≠ ring) (hpool : ∀ o ∈ data, o ≠ pool) (hring : ∀ o ∈ data, o ≠ ring) :
    (allocEnhancedMempool env pool data ring).1 = (env.malloc pool && env.malloc ring) ∧
      Owns (allocEnhancedMempool env pool data ring).2
        {r | r = .obj pool ∨ r = .obj ring ∨ ∃ o ∈ data, r = .obj o}
        (if env.malloc pool && env.malloc ring then poolRes env pool data ring else ∅) := by
  unfold allocEnhancedMempool
  cases hp : env.malloc pool with
  | false => exact ⟨rfl, Owns.nil⟩
  | true =>
      have harea : ((data.toList.filter fun o => env.malloc o).map Resource.obj).Nodup := by
        refine List.Nodup.map (fun a b h => Resource.obj.inj h) (List.Nodup.filter _ ?_)
        cases data with
        | none => exact List.nodup_nil
        | some o => exact List.nodup_singleton o
      have hmem : ∀ r, r ∈ (data.toList.filter fun o => env.malloc o).map Resource.obj ↔
          ∃ o ∈ data, env.malloc o = true ∧ r = .obj o := fun r => by
        simp only [List.mem_map, List.mem_filter, Option.mem_toList, and_assoc]
        exact exists_congr fun o => and_congr_right fun _ => and_congr_right fun _ => eq_comm
      generalize (data.toList.filter fun o => env.malloc o).map Resource.obj = area at *
      have hgot := (Owns.acquires (List.nodup_singleton (Resource.obj pool))).acquire harea
        fun r hr hr' => by
          obtain ⟨o, ho, -, rfl⟩ := (hmem r).1 hr
          exact hpool o ho (Resource.obj.inj (List.mem_singleton.1 hr'))
      cases hr : env.malloc ring with
      | false =>
          refine ⟨rfl, ?_⟩
          have hend := (hgot.release harea fun r hr => .inr hr).release
            (List.nodup_singleton (Resource.obj pool)) fun r hr => ⟨.inl hr, fun hr' => by
              obtain ⟨o, ho, -, rfl⟩ := (hmem r).1 hr'
              exact hpool o ho (Resource.obj.inj (List.mem_singleton.1 hr))⟩
          refine hend.congr ?_ fun r => ?_
          · rintro r (hr | hr)
            · exact .inl (List.mem_singleton.1 hr)
            · obtain ⟨o, ho, -, rfl⟩ := (hmem r).1 hr
              exact .inr (.inr ⟨o, ho, rfl⟩)
          · simp only [Bool.and_false, Bool.false_eq_true, if_false, Set.mem_empty_iff_false, iff_false]
            rintro ⟨⟨hr | hr, hnot⟩, hnot'⟩
            · exact hnot' hr
            · exact hnot hr
      | true =>
          refine ⟨rfl, ?_⟩
          have hend := hgot.acquire (List.nodup_singleton (Resource.obj ring)) fun r hr hr' => by
            rw [List.mem_singleton.1 hr] at hr'
            rcases hr' with hr' | hr'
            · exact hne (Resource.obj.inj (List.mem_singleton.1 hr')).symm
            · obtain ⟨o, ho, -, heq⟩ := (hmem _).1 hr'
              exact hring o ho (Resource.obj.inj heq).symm
          refine hend.congr ?_ fun r => ?_
          · rintro r ((hr | hr) | hr)
            · exact .inl (List.mem_singleton.1 hr)
            · obtain ⟨o, ho, -, rfl⟩ := (hmem r).1 hr
              exact .inr (.inr ⟨o, ho, rfl⟩)
            · exact .inr (.inl (List.mem_singleton.1 hr))
          · show ((r ∈ [_] ∨ r ∈ area) ∨ r ∈ [_]) ↔ (_ ∨ _ ∨ _)
            rw [List.mem_singleton, List.mem_singleton, hmem, or_assoc, or_comm (b := r = _)]

/-- `SHFS_CHUNKSIZE` of a label. -/
def labelChunksize (h : HdrCommon) : Nat :=
  shfsChunksize ((stripemodeOf h.memberStripemode).getD .independent) h.memberStripesize.toNat
    h.memberCount.toNat

/-- The configuration chunk can be read, and describes a table. -/
structure ConfigOk (env : MountEnv) (h : HdrCommon) (hdr : HdrConfig) : Prop where
  chk1 : env.malloc .chk1 = true
  read : env.chk1 = some hdr
  nonempty : shfsHtableSizeChunks hdr (labelChunksize h) ≠ 0

/-- The table and its bucket table find memory, and the table can be read. -/
structure TableOk (env : MountEnv) (h : HdrCommon) (hdr : HdrConfig) : Prop where
  cache : env.malloc .htableChunkCache = true
  chunks : ∀ c < shfsHtableSizeChunks hdr (labelChunksize h),
    env.malloc (.htableChunk c) = true ∧ env.setup c = true
  read : ∀ c < shfsHtableSizeChunks hdr (labelChunksize h),
    (env.chunk (wrap64 (hdr.htableRef.toNat + c))).isSome = true
  btable : env.malloc .btable = true
  bkts : ∀ i < hdr.htableBucketCount.toNat, env.malloc (.btableBkt i) = true

/-- What `shfs_alloc_cache` needs for a success. -/
structure CacheOk (env : MountEnv) : Prop where
  chunkcache : env.malloc .chunkcache = true
  pool : env.malloc .cachePool = true
  ring : env.malloc .cachePoolRing = true

theorem labelChunksize_eq {h : HdrCommon} {info : VolInfo} (hof : info.Of env h) :
    info.geom.chunksize = labelChunksize h := by
  unfold VolGeom.chunksize labelChunksize
  rw [hof.stripemode, hof.stripesize, hof.nbMembers]
  rfl

theorem loadVolHconfChunk_spec {h : HdrCommon} {info : VolInfo} (hof : info.Of env h) :
    Owns (loadVolHconfChunk env info.geom).2 {r | r.stage = 2} ∅ ∧
      match (loadVolHconfChunk env info.geom).1 with
      | .error _ => ∀ hdr, ¬ ConfigOk env h hdr
      | .ok conf => conf.geom = info.geom ∧ ConfigOk env h conf.hdr := by
  have hown : Owns (acquires [.obj .chk1] ++ releases [.obj .chk1]) {r : Resource | r.stage = 2} ∅ := by
    have hget := Owns.acquires (List.nodup_singleton (Resource.obj .chk1))
    refine (hget.release (List.nodup_singleton _) fun r hr => hr).congr ?_ fun r => ?_
    · intro r hr
      rw [List.mem_singleton.1 hr]
      rfl
    · rw [Set.mem_sdiff, and_not_self_iff]
      rfl
  unfold loadVolHconfChunk
  cases hm : env.malloc .chk1 with
  | false => exact ⟨Owns.nil, fun hdr hc => by rw [hc.chk1] at hm; cases hm⟩
  | true =>
      simp only [Bool.not_true, Bool.false_eq_true, if_false]
      cases hr : env.chk1 with
      | none => exact ⟨hown, fun hdr hc => by rw [hc.read] at hr; cases hr⟩
      | some hdr =>
          unfold loadVolHconf
          by_cases hlen : shfsHtableSizeChunks hdr info.geom.chunksize = 0
          · simp only [dif_pos hlen]
            refine ⟨hown, fun hdr' hc => hc.nonempty ?_⟩
            obtain rfl : hdr = hdr' := Option.some.inj (hr.symm.trans hc.read)
            rwa [← labelChunksize_eq hof]
          · simp only [dif_neg hlen]
            refine ⟨hown, trivial, hm, hr, ?_⟩
            rwa [← labelChunksize_eq hof]

/-! ## The hash table -/

theorem readChunks_spec (env : MountEnv) (k c : Nat) :
    if ∀ i < k, env.malloc (.htableChunk (c + i)) = true ∧ env.setup (c + i) = true then
      readChunks env k c = (none, c + k)
    else ∃ e n, readChunks env k c = (some e, n) := by
  induction k generalizing c with
  | zero =>
      rw [if_pos fun i hi => absurd hi (Nat.not_lt_zero i)]
      rfl
  | succ k ih =>
      rw [readChunks]
      cases hm : env.malloc (.htableChunk c) with
      | false =>
          rw [if_neg]
          · exact ⟨_, _, rfl⟩
          · intro hall
            have := (hall 0 (Nat.succ_pos k)).1
            rw [Nat.add_zero, hm] at this
            cases this
      | true =>
          cases hs : env.setup c with
          | false =>
              rw [if_neg]
              · exact ⟨_, _, rfl⟩
              · intro hall
                have := (hall 0 (Nat.succ_pos k)).2
                rw [Nat.add_zero, hs] at this
                cases this
          | true =>
              have hiff : (∀ i < k + 1, env.malloc (.htableChunk (c + i)) = true ∧
                    env.setup (c + i) = true) ↔
                  ∀ i < k, env.malloc (.htableChunk (c + 1 + i)) = true ∧
                    env.setup (c + 1 + i) = true := by
                constructor
                · intro hall i hi
                  have := hall (i + 1) (by omega)
                  rwa [Nat.add_right_comm]
                · intro hall i hi
                  cases i with
                  | zero => exact ⟨hm, hs⟩
                  | succ i =>
                      have := hall i (by omega)
                      rwa [Nat.add_right_comm] at this
              have hnext := ih (c + 1)
              simp only [Bool.not_true, Bool.false_eq_true, if_false, hiff]
              rw [Nat.add_right_comm] at hnext
              exact hnext

theorem htableChunks_nodup (n : Nat) : (htableChunks n).Nodup := by
  refine List.Nodup.map (fun a b h => ?_) List.nodup_range
  exact MountObj.htableChunk.inj (Resource.obj.inj h)

theorem mem_htableChunks {n : Nat} {r : Resource} :
    r ∈ htableChunks n ↔ ∃ c < n, r = .obj (.htableChunk c) := by
  simp only [htableChunks, List.mem_map, List.mem_range]
  exact exists_congr fun c => and_congr_right fun _ => eq_comm

/-- The buckets of the bucket table. -/
def bkts (n : Nat) : List Resource := (List.range n).map fun i => .obj (.btableBkt i)

theorem bkts_nodup (n : Nat) : (bkts n).Nodup := by
  refine List.Nodup.map (fun a b h => ?_) List.nodup_range
  exact MountObj.btableBkt.inj (Resource.obj.inj h)

theorem mem_bkts {n : Nat} {r : Resource} : r ∈ bkts n ↔ ∃ i < n, r = .obj (.btableBkt i) := by
  simp only [bkts, List.mem_map, List.mem_range]
  exact exists_congr fun c => and_congr_right fun _ => eq_comm

/-- The bucket table with all its buckets. -/
def btableRes (n : Nat) : Set Resource := {r | r = .obj .btable ∨ r ∈ bkts n}

/-- The chunk cache of the table with its chunks. -/
def chunkCacheRes (n : Nat) : Set Resource := {r | r = .obj .htableChunkCache ∨ r ∈ htableChunks n}

theorem freeChunkCache_owns {l : Log} {T R : Set Resource} {n : Nat} (h : Owns l T R)
    (hsub : chunkCacheRes n ⊆ R) : Owns (l ++ freeChunkCache n) T (R \ chunkCacheRes n) := by
  have h1 := h.release (htableChunks_nodup n) fun r hr => hsub (.inr hr)
  have h2 := h1.release (List.nodup_singleton (Resource.obj .htableChunkCache)) fun r hr => by
    rw [List.mem_singleton.1 hr]
    refine ⟨hsub (.inl rfl), fun hmem => ?_⟩
    obtain ⟨c, -, heq⟩ := mem_htableChunks.1 hmem
    cases heq
  rw [List.append_assoc] at h2
  refine h2.congr (Set.Subset.refl _) fun r => ?_
  simp only [Set.mem_sdiff, Set.mem_ofPred_eq, List.mem_singleton, chunkCacheRes, not_or]
  tauto

theorem freeBtable_owns {l : Log} {T R : Set Resource} {n : Nat} (h : Owns l T R)
    (hsub : btableRes n ⊆ R) : Owns (l ++ freeBtable n) T (R \ btableRes n) := by
  have h1 := h.release (bkts_nodup n) fun r hr => hsub (.inr hr)
  have h2 := h1.release (List.nodup_singleton (Resource.obj .btable)) fun r hr => by
    rw [List.mem_singleton.1 hr]
    refine ⟨hsub (.inl rfl), fun hmem => ?_⟩
    obtain ⟨c, -, heq⟩ := mem_bkts.1 hmem
    cases heq
  rw [List.append_assoc] at h2
  refine h2.congr (Set.Subset.refl _) fun r => ?_
  simp only [Set.mem_sdiff, Set.mem_ofPred_eq, List.mem_singleton, btableRes, not_or]
  tauto

/-- The bucket table comes with all its buckets, or not at all. -/
theorem allocBtable_spec (env : MountEnv) (n : Nat) :
    if env.malloc .btable = true ∧ ∀ i < n, env.malloc (.btableBkt i) = true then
      (allocBtable env n).1 = true ∧ Owns (allocBtable env n).2 (btableRes n) (btableRes n)
    else (allocBtable env n).1 = false ∧ Owns (allocBtable env n).2 (btableRes n) ∅ := by
  unfold allocBtable
  cases hb : env.malloc .btable with
  | false =>
      rw [if_neg fun h => Bool.false_ne_true h.1]
      exact ⟨rfl, Owns.nil⟩
  | true =>
      simp only [Bool.not_true, Bool.false_eq_true, if_false, List.length_map, true_and]
      have hinit := List.takeWhile_prefix (l := List.range n) fun i => env.malloc (.btableBkt i)
      have hnodup : (((List.range n).takeWhile fun i => env.malloc (.btableBkt i)).map
          fun i => Resource.obj (.btableBkt i)).Nodup :=
        (bkts_nodup n).sublist (hinit.sublist.map _)
      have hmem : ∀ r ∈ ((List.range n).takeWhile fun i => env.malloc (.btableBkt i)).map
          fun i => Resource.obj (.btableBkt i), r ∈ bkts n := fun r hr =>
        (hinit.sublist.map _).subset hr
      have hgot := (Owns.acquires (List.nodup_singleton (Resource.obj .btable))).acquire hnodup
        fun r hr hr' => by
          obtain ⟨i, -, rfl⟩ := mem_bkts.1 (hmem r hr)
          cases List.mem_singleton.1 hr'
      by_cases hall : ∀ i < n, env.malloc (.btableBkt i) = true
      · have htake : (List.range n).takeWhile (fun i => env.malloc (.btableBkt i)) = List.range n :=
          List.takeWhile_eq_self_iff.2 fun i hi => hall i (List.mem_range.1 hi)
        rw [htake] at hgot
        simp only [if_pos hall, htake, List.length_range, Nat.lt_irrefl, if_false, true_and]
        refine hgot.congr ?_ fun r => ?_
        · rintro r (hr | hr)
          · exact .inl (List.mem_singleton.1 hr)
          · exact .inr hr
        · show r ∈ [_] ∨ _ ↔ r = _ ∨ _
          rw [List.mem_singleton]
          rfl
      · have hlt : ((List.range n).takeWhile fun i => env.malloc (.btableBkt i)).length < n := by
          refine lt_of_le_of_ne (le_trans hinit.length_le (le_of_eq List.length_range)) ?_
          intro hlen
          refine hall fun i hi => ?_
          have heq := hinit.eq_of_length (hlen.trans List.length_range.symm)
          exact List.takeWhile_eq_self_iff.1 heq i (List.mem_range.2 hi)
        rw [if_neg hall]
        simp only [if_pos hlt, true_and]
        have hend := (hgot.release hnodup fun r hr => .inr hr).release
          (List.nodup_singleton (Resource.obj .btable)) fun r hr => ⟨.inl hr, fun hr' => by
            obtain ⟨i, -, rfl⟩ := mem_bkts.1 (hmem r hr')
            cases List.mem_singleton.1 hr⟩
        refine hend.congr ?_ fun r => ?_
        · rintro r (hr | hr)
          · exact .inl (List.mem_singleton.1 hr)
          · exact .inr (hmem r hr)
        · rw [Set.mem_empty_iff_false, iff_false]
          rintro ⟨⟨hr | hr, hnot⟩, hnot'⟩
          · exact hnot' hr
          · exact hnot hr

/-- The memory of the mounted hash table. -/
def tableRes (len nbBkts : Nat) : Set Resource := chunkCacheRes len ∪ btableRes nbBkts

theorem disjoint_tableRes (n m : Nat) : Disjoint (chunkCacheRes n) (btableRes m) := by
  rw [Set.disjoint_left]
  rintro r (rfl | hr) (hr' | hr')
  · cases hr'
  · obtain ⟨i, -, heq⟩ := mem_bkts.1 hr'
    cases heq
  · obtain ⟨c, -, heq⟩ := mem_htableChunks.1 hr
    rw [hr'] at heq
    cases heq
  · obtain ⟨c, -, heq⟩ := mem_htableChunks.1 hr
    obtain ⟨i, -, heq'⟩ := mem_bkts.1 hr'
    rw [heq] at heq'
    cases heq'

theorem chunkCacheRes_stage {n : Nat} {r : Resource} (hr : r ∈ chunkCacheRes n) : r.stage = 3 := by
  rcases hr with rfl | hr
  · rfl
  · obtain ⟨c, -, rfl⟩ := mem_htableChunks.1 hr
    rfl

theorem btableRes_stage {n : Nat} {r : Resource} (hr : r ∈ btableRes n) : r.stage = 3 := by
  rcases hr with rfl | hr
  · rfl
  · obtain ⟨c, -, rfl⟩ := mem_bkts.1 hr
    rfl

/-- `load_vol_htable` loads a table completely, or keeps nothing of it. -/
theorem loadVolHtableChunks_spec (env : MountEnv) {h : HdrCommon} {conf : VolConf}
    (hchunk : conf.geom.chunksize = labelChunksize h) :
    ∃ r log, loadVolHtableChunks env conf = .ok (r, log) ∧
      match r with
      | .error _ => ¬ TableOk env h conf.hdr ∧ Owns log {r | r.stage = 3} ∅
      | .ok vol => TableOk env h conf.hdr ∧ vol.conf = conf ∧
          Owns log {r | r.stage = 3} (tableRes conf.htableLen conf.htableNbBuckets) := by
  have hlen : shfsHtableSizeChunks conf.hdr (labelChunksize h) = conf.htableLen := by
    rw [← hchunk]
    rfl
  unfold loadVolHtableChunks
  cases hcache : env.malloc .htableChunkCache with
  | false =>
      refine ⟨_, _, rfl, ?_, Owns.nil⟩
      intro hok
      rw [hok.cache] at hcache
      cases hcache
  | true =>
      have hread := readChunks_spec env conf.htableLen 0
      have hgot : ∀ n, Owns (acquires [.obj .htableChunkCache] ++ acquires (htableChunks n))
          (chunkCacheRes n) (chunkCacheRes n) := fun n => by
        have hown := (Owns.acquires (List.nodup_singleton (Resource.obj .htableChunkCache))).acquire
          (htableChunks_nodup n) fun r hr hr' => by
            obtain ⟨c, -, rfl⟩ := mem_htableChunks.1 hr
            cases List.mem_singleton.1 hr'
        refine hown.congr ?_ fun r => ?_
        · rintro r (hr | hr)
          · exact .inl (List.mem_singleton.1 hr)
          · exact .inr hr
        · show r ∈ [_] ∨ _ ↔ r = _ ∨ _
          rw [List.mem_singleton]
          rfl
      have hstage : ∀ n m, chunkCacheRes n ∪ btableRes m ⊆ {r | r.stage = 3} := by
        rintro n m r (hr | hr)
        · exact chunkCacheRes_stage hr
        · exact btableRes_stage hr
      simp only [Bool.not_true, Bool.false_eq_true, if_false]
      split at hread
      · rename_i hall
        simp only [Nat.zero_add] at hall hread
        have hbt := allocBtable_spec env conf.htableNbBuckets
        simp only [hread]
        split at hbt
        · rename_i hbkts
          obtain ⟨hbt, hown⟩ := hbt
          have hboth := (hgot conf.htableLen).append hown (disjoint_tableRes _ _)
          rw [hbt]
          simp only [Bool.not_true, Bool.false_eq_true, if_false]
          by_cases hrd : ∀ c < conf.htableLen, (env.chunk (conf.htableChunk c)).isSome = true
          · obtain ⟨v, hv, hconf, -⟩ := loadVolHtable_spec conf env.chunk hrd
            rw [hv]
            refine ⟨_, _, rfl, ⟨hcache, ?_, ?_, hbkts.1, hbkts.2⟩, hconf,
              hboth.congr (hstage _ _) fun r => Iff.rfl⟩
            · rwa [hlen]
            · rwa [hlen]
          · rw [loadVolHtable_eio hrd]
            refine ⟨_, _, rfl, fun hok => hrd ?_, ?_⟩
            · rw [← hlen]
              exact hok.read
            · have hend := freeChunkCache_owns
                (freeBtable_owns hboth Set.subset_union_right) (n := conf.htableLen)
                fun r hr => ⟨.inl hr, Set.disjoint_left.1 (disjoint_tableRes _ _) hr⟩
              refine hend.congr (hstage _ _) fun r => ?_
              simp only [Set.mem_sdiff, Set.mem_union, Set.mem_empty_iff_false, iff_false]
              tauto
        · rename_i hbkts
          obtain ⟨hbt, hown⟩ := hbt
          have hboth := (hgot conf.htableLen).append hown (disjoint_tableRes _ _)
          rw [hbt]
          refine ⟨_, _, rfl, fun hok => hbkts ⟨hok.btable, hok.bkts⟩, ?_⟩
          have hend := freeChunkCache_owns hboth Set.subset_union_left
          refine hend.congr (hstage _ _) fun r => ?_
          simp only [Set.mem_sdiff, Set.mem_union, Set.mem_empty_iff_false, or_false, iff_false]
          tauto
      · rename_i hall
        obtain ⟨e, n, hread⟩ := hread
        simp only [hread]
        refine ⟨_, _, rfl, fun hok => hall fun i hi => ?_, ?_⟩
        · rw [Nat.zero_add]
          rw [← hlen] at hi
          exact hok.chunks i hi
        · refine (freeChunkCache_owns (hgot n) (Set.Subset.refl _)).congr
            (fun r hr => chunkCacheRes_stage hr) fun r => ?_
          rw [Set.sdiff_self]

/-! ## The cache -/

/-- The resources of the chunk cache, as far as they could be allocated. -/
def cacheRes (env : MountEnv) : Set Resource :=
  {r | r = .obj .chunkcache} ∪ poolRes env .cachePool (some .cachePoolData) .cachePoolRing

theorem shfsAllocCache_spec (env : MountEnv) :
    match (shfsAllocCache env).1 with
    | some _ => ¬ CacheOk env ∧ Owns (shfsAllocCache env).2 {r | r.stage = 5} ∅
    | none => CacheOk env ∧ Owns (shfsAllocCache env).2 {r | r.stage = 5} (cacheRes env) := by
  unfold shfsAllocCache
  cases hcc : env.malloc .chunkcache with
  | false =>
      refine ⟨fun hok => ?_, Owns.nil⟩
      rw [hok.chunkcache] at hcc
      cases hcc
  | true =>
      obtain ⟨hret, hown⟩ := allocEnhancedMempool_spec env .cachePool .cachePoolRing (by decide)
        (fun o (ho : o ∈ some MountObj.cachePoolData) => by rw [← Option.some.inj ho]; decide)
        (fun o ho => by rw [← Option.some.inj ho]; decide)
      have hcc1 := Owns.acquires (List.nodup_singleton (Resource.obj .chunkcache))
      have hdisj : Disjoint {r | r ∈ [Resource.obj .chunkcache]}
          {r | r = Resource.obj .cachePool ∨ r = .obj .cachePoolRing ∨
            ∃ o ∈ some MountObj.cachePoolData, r = .obj o} := by
        rw [Set.disjoint_left]
        intro r hr
        rw [List.mem_singleton.1 hr]
        rintro (h | h | ⟨o, ho, h⟩)
        · cases h
        · cases h
        · rw [← Option.some.inj ho] at h
          cases h
      have hboth := hcc1.append hown hdisj
      have hstage : ({r | r ∈ [Resource.obj .chunkcache]} ∪
          {r | r = Resource.obj .cachePool ∨ r = .obj .cachePoolRing ∨
            ∃ o ∈ some MountObj.cachePoolData, r = .obj o}) ⊆ {r | r.stage = 5} := by
        rintro r (hr | rfl | rfl | ⟨o, ho, rfl⟩)
        · rw [List.mem_singleton.1 hr]
          rfl
        · rfl
        · rfl
        · rw [← Option.some.inj ho]
          rfl
      simp only [Bool.not_true, Bool.false_eq_true, if_false, hret]
      cases hpool : env.malloc .cachePool && env.malloc .cachePoolRing with
      | false =>
          rw [hpool] at hboth
          refine ⟨fun hok => ?_, ?_⟩
          · rw [hok.pool, hok.ring] at hpool
            cases hpool
          · have hend := hboth.release (List.nodup_singleton (Resource.obj .chunkcache))
              fun r hr => .inl hr
            refine hend.congr hstage fun r => ?_
            rw [Set.mem_sdiff, Set.mem_empty_iff_false, iff_false]
            rintro ⟨hr | hr, hnot⟩
            · exact hnot hr
            · exact hr
      | true =>
          rw [hpool] at hboth
          obtain ⟨hp, hr⟩ := Bool.and_eq_true_iff.1 hpool
          refine ⟨⟨hcc, hp, hr⟩, hboth.congr hstage fun r => ?_⟩
          show r ∈ [_] ∨ _ ↔ r = _ ∨ _
          rw [List.mem_singleton]
          rfl

/-! ## Atomicity -/

/-- All that belongs to a mounted volume. -/
def volumeRes (info : VolInfo) (conf : VolConf) : Set Resource :=
  devs info.member ∪ {.obj .aiotokenPool, .obj .aiotokenRing} ∪
    tableRes conf.htableLen conf.htableNbBuckets ∪ {.obj .remountChunkBuffer} ∪
    {.obj .chunkcache, .obj .cachePool, .obj .cachePoolData, .obj .cachePoolRing}

/-- The volume is mounted, and holds all that belongs to it. -/
def Complete (out : Mounted) : Prop :=
  out.shfsMounted = true ∧ ∃ info vol, out.info = some info ∧ out.vol = some vol ∧
    ∀ r ∈ volumeRes info vol.conf, Holds out.log r

/-- The call mounts a volume completely and returns 0, or it leaves nothing behind and does not. -/
structure Atomic (out : Mounted) : Prop where
  zero_iff : out.ret = none ↔ Complete out
  undone : out.ret ≠ none → out.shfsMounted = false ∧ Settled out.log

/-- What a mount must meet so as not to go wrong. Each field speaks of the labels that pass all checks, if
there is one. -/
structure Clean (env : MountEnv) (before : Bool) : Prop where
  unmounted : before = false
  /-- the token pool can be allocated -/
  pool : ∀ h, Accepted env h → env.malloc .aiotokenPool = true ∧ env.malloc .aiotokenRing = true
  /-- if there is a table, it can be loaded; the remount buffer can be allocated, and the data area of
  the cache as well, unless another part of the cache fails -/
  table : ∀ h hdr, Accepted env h → ConfigOk env h hdr → TableOk env h hdr ∧
    env.malloc .remountChunkBuffer = true ∧ (CacheOk env → env.malloc .cachePoolData = true)
  /-- if the configuration or the cache fails, no device has to be closed twice -/
  distinct : ∀ h, Accepted env h → (∀ hdr, ConfigOk env h hdr → ¬ CacheOk env) → DistinctMembers h

/-- The ledger of a later stage, behind those before. -/
theorem owns_stage {l l' : Log} {k : Nat} {R R' : Set Resource} (h : Owns l {r | r.stage ≤ k} R)
    (h' : Owns l' {r | r.stage = k + 1} R') : Owns (l ++ l') {r | r.stage ≤ k + 1} (R ∪ R') := by
  refine (h.append h' ?_).congr ?_ fun r => Iff.rfl
  · rw [Set.disjoint_left]
    intro r (hr : r.stage ≤ k) (hr' : r.stage = k + 1)
    omega
  · rintro r (hr | hr)
    · exact Nat.le_succ_of_le hr
    · exact Nat.le_of_eq hr

/-- The token pool. -/
def tokenPoolRes : Set Resource := {.obj .aiotokenPool, .obj .aiotokenRing}

theorem tokenPool_spec (env : MountEnv) :
    let pool := allocEnhancedMempool env .aiotokenPool none .aiotokenRing
    pool.1 = (env.malloc .aiotokenPool && env.malloc .aiotokenRing) ∧
      Owns pool.2 {r | r.stage = 1} (if pool.1 then tokenPoolRes else ∅) := by
  obtain ⟨hret, hown⟩ := allocEnhancedMempool_spec env .aiotokenPool .aiotokenRing (by decide)
    (fun o (ho : o ∈ none) => by cases ho) (fun o ho => by cases ho)
  refine ⟨hret, hown.congr ?_ fun r => ?_⟩
  · rintro r (rfl | rfl | ⟨o, ho, -⟩)
    · rfl
    · rfl
    · cases ho
  · rw [hret]
    split
    · constructor
      · rintro (h | h | ⟨o, ho, -⟩)
        · exact .inl h
        · exact .inr h
        · cases ho
      · rintro (h | h)
        · exact .inl h
        · exact .inr (.inl h)
    · exact Iff.rfl

theorem freePool_owns {l : Log} {T R : Set Resource} (h : Owns l T R) (hsub : tokenPoolRes ⊆ R) :
    Owns (l ++ freeMempool .aiotokenPool .aiotokenRing) T (R \ tokenPoolRes) := by
  have h1 := h.release (List.nodup_singleton (Resource.obj .aiotokenRing)) fun r hr => by
    rw [List.mem_singleton.1 hr]
    exact hsub (.inr rfl)
  have h2 := h1.release (List.nodup_singleton (Resource.obj .aiotokenPool)) fun r hr => by
    rw [List.mem_singleton.1 hr]
    exact ⟨hsub (.inl rfl), fun hmem => by cases List.mem_singleton.1 hmem⟩
  rw [List.append_assoc] at h2
  refine h2.congr (Set.Subset.refl _) fun r => ?_
  simp only [Set.mem_sdiff, Set.mem_ofPred_eq, List.mem_singleton, tokenPoolRes, Set.mem_insert_iff,
    Set.mem_singleton_iff, not_or]
  tauto

/-- Once the members are all that is left, closing them settles the ledger if none comes twice. -/
theorem settled_closeMembers {l : Log} {T : Set Resource} {ds : List Nat} (h : Owns l T (devs ds)) :
    Settled (l ++ releases (ds.map .dev)) ↔ ds.Nodup := by
  have hinj : Function.Injective Resource.dev := fun a b h => Resource.dev.inj h
  constructor
  · intro hs
    by_contra hnd
    obtain ⟨d, hd⟩ : ∃ d, 1 < ds.count d := by
      by_contra hno
      refine hnd (List.nodup_iff_count_le_one.2 fun d => Nat.le_of_not_lt fun hlt => hno ⟨d, hlt⟩)
    have hcount : (ds.map Resource.dev).count (.dev d) = ds.count d :=
      List.count_map_of_injective ds Resource.dev hinj d
    refine h.not_settled (r := .dev d) ⟨d, List.count_pos_iff.1 (by omega), rfl⟩ ?_ hs
    rw [hcount]
    omega
  · intro hnd
    have hsub : ∀ r ∈ ds.map Resource.dev, r ∈ devs ds := fun r hr => by
      obtain ⟨d, hd, rfl⟩ := List.mem_map.1 hr
      exact ⟨d, hd, rfl⟩
    refine ((h.release (hnd.map hinj) hsub).congr (Set.Subset.refl _) fun r => ?_).to_settled
    rw [Set.mem_sdiff, Set.mem_empty_iff_false, iff_false, not_and_not_right]
    rintro ⟨d, hd, rfl⟩
    exact List.mem_map_of_mem hd

/-- What is left of two groups of resources once the second is released. -/
theorem owns_left {l : Log} {T A B : Set Resource} (h : Owns l T ((A ∪ B) \ B))
    (hd : ∀ r ∈ A, r ∉ B) : Owns l T A :=
  h.congr (Set.Subset.refl _) fun r => by
    constructor
    · rintro ⟨hr | hr, hnot⟩
      · exact hr
      · exact absurd hr hnot
    · intro hr
      exact ⟨.inl hr, hd r hr⟩

theorem devs_stage {ds : List Nat} {r : Resource} (hr : r ∈ devs ds) : r.stage = 0 := by
  obtain ⟨d, -, rfl⟩ := hr
  rfl

theorem tokenPoolRes_stage {r : Resource} (hr : r ∈ tokenPoolRes) : r.stage = 1 := by
  rcases hr with rfl | rfl
  · rfl
  · rfl

theorem tableRes_stage {n m : Nat} {r : Resource} (hr : r ∈ tableRes n m) : r.stage = 3 := by
  rcases hr with hr | hr
  · exact chunkCacheRes_stage hr
  · exact btableRes_stage hr

/-- The resources of the stages before that of a resource are others. -/
theorem devs_not_tokenPool {ds : List Nat} {r : Resource} (hr : r ∈ devs ds) : r ∉ tokenPoolRes :=
  fun h => by
    have h0 := devs_stage hr
    rw [tokenPoolRes_stage h] at h0
    exact absurd h0 (by decide)

/-- Giving back the table after a failure behind it. -/
theorem freeHtable_owns {l : Log} {T A : Set Resource} {n m : Nat} (h : Owns l T (A ∪ tableRes n m))
    (hA : ∀ r ∈ A, r.stage < 3) : Owns (l ++ (freeChunkCache n ++ freeBtable m)) T A := by
  have hend := freeBtable_owns (freeChunkCache_owns h fun r hr => .inr (.inl hr)) (n := m)
    fun r hr => ⟨.inr (.inr hr), Set.disjoint_right.1 (disjoint_tableRes _ _) hr⟩
  rw [List.append_assoc] at hend
  refine hend.congr (Set.Subset.refl _) fun r => ?_
  constructor
  · rintro ⟨⟨hr | hr | hr, h1⟩, h2⟩
    · exact hr
    · exact absurd hr h1
    · exact absurd hr h2
  · intro hr
    have hlt := hA r hr
    refine ⟨⟨.inl hr, fun h1 => ?_⟩, fun h2 => ?_⟩
    · rw [chunkCacheRes_stage h1] at hlt
      omega
    · rw [btableRes_stage h2] at hlt
      omega

/-- There is one accepted label at most. -/
theorem clean_iff {h : HdrCommon} (hacc : Accepted env h) : Clean env false ↔
    (env.malloc .aiotokenPool = true ∧ env.malloc .aiotokenRing = true) ∧
      (∀ hdr, ConfigOk env h hdr → TableOk env h hdr ∧ env.malloc .remountChunkBuffer = true ∧
        (CacheOk env → env.malloc .cachePoolData = true)) ∧
      ((∀ hdr, ConfigOk env h hdr → ¬ CacheOk env) → DistinctMembers h) := by
  have honly : ∀ h', Accepted env h' → h' = h := fun h' hacc' =>
    Option.some.inj (hacc'.first.symm.trans hacc.first)
  constructor
  · intro hc
    exact ⟨hc.pool h hacc, fun hdr => hc.table h hdr hacc, hc.distinct h hacc⟩
  · rintro ⟨hp, ht, hdist⟩
    refine ⟨rfl, fun h' hacc' => hp, fun h' hdr hacc' => ?_, fun h' hacc' => ?_⟩
    · rw [honly h' hacc']
      exact ht hdr
    · rw [honly h' hacc']
      exact hdist

/-- A call that returns an error and does not mount is atomic if its ledger is settled. -/
theorem atomic_failed {e : MountErr} {info : Option VolInfo} {vol : Option Vol} {log : Log} :
    Atomic ⟨some e, false, info, vol, log⟩ ↔ Settled log := by
  constructor
  · intro h
    exact (h.undone (Option.some_ne_none e)).2
  · intro h
    exact ⟨⟨fun he => (Option.some_ne_none e he).elim, fun hc => (Bool.false_ne_true hc.1).elim⟩,
      fun _ => ⟨rfl, h⟩⟩

/-- A call that returns 0 and does not mount is not. -/
theorem not_atomic_zero {info : Option VolInfo} {vol : Option Vol} {log : Log} :
    ¬ Atomic ⟨none, false, info, vol, log⟩ := fun h =>
  Bool.false_ne_true (h.zero_iff.1 rfl).1

/-- A call that mounts is atomic if the data area of the cache is there. -/
theorem atomic_mounted {info : VolInfo} {vol : Vol} {log : Log} {T : Set Resource}
    (hown : Owns log T (devs info.member ∪ tokenPoolRes ∪
      tableRes vol.conf.htableLen vol.conf.htableNbBuckets ∪ {r | r ∈ [.obj .remountChunkBuffer]} ∪
      cacheRes env)) :
    Atomic ⟨none, true, some info, some vol, log⟩ ↔ env.malloc .cachePoolData = true := by
  constructor
  · intro h
    obtain ⟨-, info', vol', hinfo, hvol, hall⟩ := h.zero_iff.1 rfl
    obtain ⟨h1, h0⟩ := hall (.obj .cachePoolData) (.inr (.inr (.inr (.inl rfl))))
    by_contra hno
    have hs := (hown.settled (.obj .cachePoolData) ?_).2
    · simp only at h1 h0 hs
      omega
    · rintro ((((hr | hr) | hr) | hr) | (hr | hr | hr | ⟨o, ho, hm, hr⟩))
      · exact absurd (devs_stage hr) (by decide)
      · exact absurd (tokenPoolRes_stage hr) (by decide)
      · exact absurd (tableRes_stage hr) (by decide)
      · cases List.mem_singleton.1 hr
      · cases hr
      · cases hr
      · cases hr
      · obtain rfl := Resource.obj.inj hr
        exact hno hm
  · intro hdata
    have hcomplete : Complete ⟨none, true, some info, some vol, log⟩ := by
      refine ⟨rfl, info, vol, rfl, rfl, fun r hr => hown.held r ?_⟩
      rcases hr with (((hr | hr) | hr) | hr) | (hr | hr | hr | hr)
      · exact .inl (.inl (.inl (.inl hr)))
      · exact .inl (.inl (.inl (.inr hr)))
      · exact .inl (.inl (.inr hr))
      · exact .inl (.inr (List.mem_singleton.2 hr))
      · exact .inr (.inl hr)
      · exact .inr (.inr (.inl hr))
      · exact .inr (.inr (.inr (.inr ⟨_, rfl, hdata, hr⟩)))
      · exact .inr (.inr (.inr (.inl hr)))
    exact ⟨⟨fun _ => hcomplete, fun _ => rfl⟩, fun hne => absurd rfl hne⟩

/-- `mount_shfs` once the label is accepted. -/
theorem mountVol_spec {h : HdrCommon} {info : VolInfo} {log : Log}
    (hacc : Accepted env h) (hof : info.Of env h)
    (hown : Owns log {r | r.stage = 0} (devs info.member)) :
    ∃ out, mountVol env info log = .ok out ∧ (Atomic out ↔ Clean env false) := by
  have hnodup : info.member.Nodup ↔ DistinctMembers h := by
    rw [hof.member]
    exact findMembers_nodup hacc.members
  have hown0 : Owns log {r | r.stage ≤ 0} (devs info.member) :=
    hown.congr (fun r (hr : r.stage = 0) => Nat.le_of_eq hr) fun r => Iff.rfl
  obtain ⟨hpool, hpoolOwn⟩ := tokenPool_spec env
  rw [clean_iff hacc]
  unfold mountVol
  cases hret : (allocEnhancedMempool env .aiotokenPool none .aiotokenRing).1 with
  | false =>
      simp only [hret, Bool.not_false, if_true]
      refine ⟨_, rfl, iff_of_false not_atomic_zero fun hc => ?_⟩
      rw [hret, hc.1.1, hc.1.2] at hpool
      cases hpool
  | true =>
      rw [hret] at hpool hpoolOwn
      have hmalloc := Bool.and_eq_true_iff.1 hpool.symm
      rw [if_pos rfl] at hpoolOwn
      obtain ⟨hconfOwn, hconf⟩ := loadVolHconfChunk_spec hof
      have hown2 := owns_stage (owns_stage hown0 hpoolOwn) hconfOwn
      rw [Set.union_empty] at hown2
      simp only [hret, Bool.not_true, Bool.false_eq_true, if_false]
      cases hc : (loadVolHconfChunk env info.geom).1 with
      | error e =>
          rw [hc] at hconf
          refine ⟨_, rfl, atomic_failed.trans ?_⟩
          have hfree := owns_left (freePool_owns hown2 Set.subset_union_right)
            fun r hr => devs_not_tokenPool hr
          rw [settled_closeMembers hfree, hnodup]
          constructor
          · intro hdist
            exact ⟨hmalloc, fun hdr hok => absurd hok (hconf hdr), fun _ => hdist⟩
          · intro hclean
            exact hclean.2.2 fun hdr hok => absurd hok (hconf hdr)
      | ok conf =>
          rw [hc] at hconf
          obtain ⟨hgeom, hok⟩ := hconf
          have hchunk : conf.geom.chunksize = labelChunksize h := by
            rw [hgeom]
            exact labelChunksize_eq hof
          have hhdr : ∀ hdr, ConfigOk env h hdr → hdr = conf.hdr := fun hdr hok' =>
            Option.some.inj (hok'.read.symm.trans hok.read)
          obtain ⟨r, tlog, ht, htable⟩ := loadVolHtableChunks_spec env hchunk
          simp only [ht, bind, Except.bind]
          cases r with
          | error e =>
              obtain ⟨hno, htown⟩ := htable
              refine ⟨_, rfl, iff_of_false (fun hat => ?_) fun hcl => hno (hcl.2.1 _ hok).1⟩
              refine (owns_stage hown2 htown).not_settled (r := .obj .aiotokenPool)
                (.inl (.inr (.inl rfl))) ?_ (atomic_failed.1 hat)
              rw [List.count_eq_zero_of_not_mem (by simp)]
              exact Nat.zero_ne_one
          | ok vol =>
              obtain ⟨htab, hvol, htown⟩ := htable
              have hown3 := owns_stage hown2 htown
              by_cases hrem : env.malloc .remountChunkBuffer = true
              · have hbuf : Owns (acquires [Resource.obj .remountChunkBuffer]) {r | r.stage = 4}
                    {r | r ∈ [Resource.obj .remountChunkBuffer]} :=
                  (Owns.acquires (List.nodup_singleton _)).congr
                    (fun r hr => by rw [List.mem_singleton.1 hr]; rfl) fun r => Iff.rfl
                have hown4 := owns_stage hown3 hbuf
                have hcache := shfsAllocCache_spec env
                simp only [hrem, Bool.not_true, Bool.false_eq_true, if_false]
                cases hcc : (shfsAllocCache env).1 with
                | some e =>
                    rw [hcc] at hcache
                    obtain ⟨hno, hcown⟩ := hcache
                    refine ⟨_, rfl, atomic_failed.trans ?_⟩
                    have hown5 := (owns_stage hown4 hcown).congr (Set.Subset.refl _) fun r => by
                      rw [Set.union_empty]
                    have hrest := owns_left (hown5.release (List.nodup_singleton _) fun r hr => .inr hr)
                      fun r hr hr' => by
                        rw [List.mem_singleton.1 hr'] at hr
                        rcases hr with (hr | hr) | hr
                        · exact absurd (devs_stage hr) (by decide)
                        · exact absurd (tokenPoolRes_stage hr) (by decide)
                        · exact absurd (tableRes_stage hr) (by decide)
                    have htable := freeHtable_owns hrest fun r hr => by
                      rcases hr with hr | hr
                      · rw [devs_stage hr]
                        decide
                      · rw [tokenPoolRes_stage hr]
                        decide
                    have hfree := owns_left (freePool_owns htable Set.subset_union_right)
                      fun r hr => devs_not_tokenPool hr
                    rw [settled_closeMembers hfree, hnodup]
                    constructor
                    · intro hdist
                      refine ⟨hmalloc, fun hdr hok' => ?_, fun _ => hdist⟩
                      rw [hhdr hdr hok']
                      exact ⟨htab, trivial, fun hc => absurd hc hno⟩
                    · intro hclean
                      exact hclean.2.2 fun _ _ => hno
                | none =>
                    rw [hcc] at hcache
                    obtain ⟨hcok, hcown⟩ := hcache
                    have hown5 := owns_stage hown4 hcown
                    rw [← hvol] at hown5
                    refine ⟨_, rfl, (atomic_mounted hown5).trans ?_⟩
                    constructor
                    · intro hdata
                      refine ⟨hmalloc, fun hdr hok' => ?_, fun hno => absurd hcok (hno _ hok)⟩
                      rw [hhdr hdr hok']
                      exact ⟨htab, trivial, fun _ => hdata⟩
                    · intro hclean
                      exact (hclean.2.1 _ hok).2.2 hcok
              · refine ⟨_, if_pos (by simpa using hrem), iff_of_false not_atomic_zero fun hcl => ?_⟩
                exact hrem (hcl.2.1 _ hok).2.1

/-- A mount is atomic exactly if what it meets does not lead it onto one of the ways out that go wrong; in
any case it returns. Atomic is the outcome 0 with the volume mounted and all it needs in place, or a
negative number with nothing mounted and everything given back once. -/
theorem mount_atomic_iff (hd : env.bdId.Nodup) (before : Bool) :
    ∃ out, mountShfs env before = .ok out ∧ (Atomic out ↔ Clean env before) := by
  unfold mountShfs
  cases before with
  | true =>
      have hno : ∀ e, ¬ Atomic ⟨some e, true, none, none, []⟩ := fun e h =>
        Bool.false_ne_true (h.undone (Option.some_ne_none e)).1.symm
      split
      · exact ⟨_, rfl, iff_of_false (hno _) fun hc => Bool.false_ne_true hc.unmounted.symm⟩
      · exact ⟨_, rfl, iff_of_false (hno _) fun hc => Bool.false_ne_true hc.unmounted.symm⟩
  | false =>
      have hclean : (∀ h, ¬ Accepted env h) → Clean env false := fun hno =>
        ⟨rfl, fun h hacc => absurd hacc (hno h), fun h _ hacc => absurd hacc (hno h),
          fun h hacc => absurd hacc (hno h)⟩
      split
      · rename_i hlen
        refine ⟨_, rfl, iff_of_true (atomic_failed.2 (Owns.nil (T := ∅)).to_settled) (hclean fun h hacc => ?_)⟩
        have hfirst := hacc.first
        unfold firstLabel usableDevs at hfirst
        rw [List.length_eq_zero_iff.1 hlen] at hfirst
        cases hfirst
      · obtain ⟨r, log, hr, hspec⟩ := loadVolCconf_spec hd
        rw [hr]
        cases r with
        | error e =>
            exact ⟨_, rfl, iff_of_true (atomic_failed.2 hspec.2.to_settled) (hclean hspec.1)⟩
        | ok info =>
            obtain ⟨h, hacc, hof, hown⟩ := hspec
            exact mountVol_spec hacc hof hown

/-- The label of a volume of three chunks on one member. -/
def tinyLabel : HdrCommon where
  magic := shfsMagic
  version := (shfsMajor, shfsMinor)
  volByteorder := sboLittleendian
  volSize := 3
  memberStripemode := shfsSmIndependent
  memberStripesize := 4096
  memberUuid := 7
  memberCount := 1
  member := fun _ => 7

/-- A device of 32 sectors with that label, and a table of one entry. -/
def tinyMount : MountEnv where
  bdId := [0]
  openOk := fun _ => true
  info := fun _ => ⟨512, 32⟩
  label := fun _ => some tinyLabel
  reread := true
  malloc := fun _ => true
  chk1 := some ⟨2, 0, 2, 32, 1, 1, 0⟩
  setup := fun _ => true
  chunk := fun _ => some Bytes.zeros

/-- Without a failure the volume is mounted completely. -/
theorem mount_atomic_iff_tiny : ∃ out, mountShfs tinyMount false = .ok out ∧ Atomic out := by
  obtain ⟨out, hout, hiff⟩ := @mount_atomic_iff tinyMount (by decide) false
  refine ⟨out, hout, hiff.2 ⟨rfl, fun _ _ => ⟨rfl, rfl⟩, fun h hdr _ _ => ?_, fun h hacc _ => ?_⟩⟩
  · exact ⟨⟨rfl, fun _ _ => ⟨rfl, rfl⟩, fun _ _ => rfl, rfl, fun _ _ => rfl⟩, rfl, fun _ => rfl⟩
  · have hlabel : tinyLabel = h := Option.some.inj hacc.first
    intro i hi j hj _
    rw [← hlabel] at hi hj
    exact (Nat.lt_one_iff.1 hi).trans (Nat.lt_one_iff.1 hj).symm

/-- The same without memory for the token pool: 0 is returned, and nothing is mounted. -/
theorem mount_zero_unmounted : ∃ out,
    mountShfs { tinyMount with malloc := fun o => o ≠ .aiotokenPool } false = .ok out ∧
      out.ret = none ∧ out.shfsMounted = false ∧ ¬ Atomic out :=
  ⟨_, rfl, rfl, rfl, not_atomic_zero⟩

end Minipython.Shfs.Mount
