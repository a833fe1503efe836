/-
# Minipython.Shfs.MountLabel — which labels a mount accepts (shfs.c, load_vol_cconf)

`Accepted env h` says in terms of the devices and the label `h` what `load_vol_cconf` checks, and
`loadVolCconf_spec` that it accepts nothing else, never fails an assertion, and keeps the members of the
volume open and nothing besides.

A label is accepted by the first device that is usable. Its members are found by their identifiers among the
usable devices; a device that belongs to another volume is passed over and closed again. The sizes are
compared with `min_member_size`, as the code computes it; `MemberSize` says what that is worth.
-/
import Mathlib.Data.List.Find
import Mathlib.Data.List.Nodup
import Minipython.Shfs.Mount
import Minipython.Shfs.Stripe

namespace Minipython.Shfs

open Minipython.Lib
open Minipython.Lib.Ledger
open Minipython.Minios (powerOf2 powerOf2_iff)

/-! ## Devices -/

/-- A device opens, and has sectors and a label of the kind that is supported. -/
def usable (env : MountEnv) (d : Nat) : Bool :=
  env.openOk d &&
    !decide ((env.info d).sectorSize > 4096 ∨ (env.info d).sectorSize < 512 ∨
      powerOf2 (env.info d).sectorSize = false) &&
    (env.label d).any fun h => !decide (shfsDetectHdr0 h < 0)

/-- The usable devices, in the order given. -/
def usableDevs (env : MountEnv) : List Nat := env.bdId.filter (usable env)

/-- The label that decides about the volume: that of the first usable device. -/
def firstLabel (env : MountEnv) : Option HdrCommon := (usableDevs env).head?.bind env.label

/-- The usable device that a member uuid stands for. -/
def deviceOf (env : MountEnv) (u : Uuid) : Option Nat :=
  (usableDevs env).find? fun d => (env.label d).any fun h => u = h.memberUuid

/-- A label that `load_vol_cconf` accepts. -/
structure Accepted (env : MountEnv) (h : HdrCommon) : Prop where
  count : env.bdId.length ≤ maxNbTryBlkdevs
  chk0 : env.malloc .chk0 = true
  first : firstLabel env = some h
  reread : env.reread = true
  members : ∀ i < h.memberCount.toNat, (deviceOf env (h.member i)).isSome
  stripesize : ¬(h.memberStripesize > 32768 ∨ h.memberStripesize < 4096 ∨
    powerOf2 h.memberStripesize = false)
  size : ∃ mode, stripemodeOf h.memberStripemode = some mode ∧
    ∀ i < h.memberCount.toNat, ∀ d, deviceOf env (h.member i) = some d →
      minMemberSize mode h.volSize h.memberCount.toNat h.memberStripesize ≤
        (env.info d).blkdevSize

/-- No two members of a label have the same uuid. -/
def DistinctMembers (h : HdrCommon) : Prop :=
  ∀ i < h.memberCount.toNat, ∀ j < h.memberCount.toNat, h.member i = h.member j → i = j

/-- The part of a mount that acquires a resource, in the order of `mount_shfs`. -/
def MountObj.stage : MountObj → Nat
  | .chk0 => 0
  | .aiotokenPool => 1
  | .aiotokenRing => 1
  | .chk1 => 2
  | .htableChunkCache => 3
  | .htableChunk _ => 3
  | .btable => 3
  | .btableBkt _ => 3
  | .remountChunkBuffer => 4
  | .chunkcache => 5
  | .cachePool => 5
  | .cachePoolData => 5
  | .cachePoolRing => 5

def Resource.stage : Resource → Nat
  | .dev _ => 0
  | .obj o => o.stage

/-- The resources of a set of devices. -/
def devs (ds : List Nat) : Set Resource := {r | ∃ d ∈ ds, r = .dev d}

section Detect

variable {env : MountEnv}

theorem usable_ssize {d : Nat} (h : usable env d = true) : SsizeOk (env.info d).sectorSize.toNat := by
  simp only [usable, Bool.and_eq_true, Bool.not_eq_true', decide_eq_false_iff_not] at h
  obtain ⟨hhi, hlo, hpow⟩ := not_or.1 h.1.2 |>.imp_right not_or.1
  obtain ⟨k, -, hk⟩ := powerOf2_iff.1 (Bool.not_eq_false _ |>.mp hpow)
  have hle : (env.info d).sectorSize.toNat ≤ 4096 := UInt32.not_lt.1 hhi
  have hge : 512 ≤ (env.info d).sectorSize.toNat := UInt32.not_lt.1 hlo
  refine ⟨k, ?_, ?_, hk⟩
  · rw [← Nat.pow_le_pow_iff_right Nat.one_lt_two, ← hk]
    omega
  · rw [← Nat.pow_le_pow_iff_right Nat.one_lt_two, ← hk]
    omega

/-- One device is opened, and closed again unless it is usable. -/
theorem shfsCheckopenBlkdev_spec (env : MountEnv) (d : Nat) :
    (shfsCheckopenBlkdev env d).1.toList.map Detected.bd = (if usable env d then [d] else []) ∧
      (∀ x ∈ (shfsCheckopenBlkdev env d).1.toList, env.label x.bd = some x.hdr) ∧
      Owns (shfsCheckopenBlkdev env d).2 (devs [d]) (devs (if usable env d then [d] else [])) := by
  have hnone : Owns ([] : Log) (devs [d]) (devs []) :=
    Owns.nil.congr (Set.Subset.refl _) fun r => by simp [devs]
  have hopen : Owns (acquires [.dev d] : Log) (devs [d]) (devs [d]) :=
    (Owns.acquires (List.nodup_singleton (Resource.dev d))).congr (by simp [devs]) (by simp [devs])
  have hclosed : Owns (acquires [.dev d] ++ releases [.dev d] : Log) (devs [d]) (devs []) :=
    (hopen.release (List.nodup_singleton (Resource.dev d)) (by simp [devs])).congr
      (Set.Subset.refl _) (by simp [devs])
  unfold shfsCheckopenBlkdev usable
  cases hok : env.openOk d with
  | false => exact ⟨rfl, by simp, hnone⟩
  | true =>
      simp only [Bool.not_true, Bool.false_eq_true, if_false, Bool.true_and]
      split
      · rename_i hs
        simp only [hs]
        exact ⟨rfl, by simp, hclosed⟩
      · rename_i hs
        cases hl : env.label d with
        | none =>
            simp only [Option.any_none, Bool.and_false]
            exact ⟨rfl, by simp, hclosed⟩
        | some h =>
            simp only [hs, Option.any_some, decide_false, Bool.not_false, Bool.true_and]
            split
            · rename_i hd
              simp only [hd]
              exact ⟨rfl, by simp, hclosed⟩
            · rename_i hd
              simp only [hd]
              refine ⟨rfl, fun x hx => ?_, hopen⟩
              obtain rfl := List.mem_singleton.1 hx
              exact hl

/-- The detected devices are the usable ones, each with its label. -/
theorem detectMembers_found (env : MountEnv) (ds : List Nat) :
    (detectMembers env ds).1.map Detected.bd = ds.filter (usable env) ∧
      ∀ x ∈ (detectMembers env ds).1, env.label x.bd = some x.hdr := by
  induction ds with
  | nil => exact ⟨rfl, fun x hx => absurd hx List.not_mem_nil⟩
  | cons d ds ih =>
      obtain ⟨h1, h2, -⟩ := shfsCheckopenBlkdev_spec env d
      obtain ⟨ih1, ih2⟩ := ih
      constructor
      · rw [detectMembers, List.map_append, h1, ih1, List.filter_cons]
        split <;> rfl
      · intro x hx
        rcases List.mem_append.1 hx with hx | hx
        · exact h2 x hx
        · exact ih2 x hx

/-- Behind the loop over the devices the usable ones are open. -/
theorem detectMembers_owns (env : MountEnv) {ds : List Nat} (hd : ds.Nodup) :
    Owns (detectMembers env ds).2 (devs ds) (devs (ds.filter (usable env))) := by
  induction ds with
  | nil =>
      refine Owns.nil.congr (Set.Subset.refl _) ?_
      simp [devs]
  | cons d ds ih =>
      obtain ⟨hnot, hd⟩ := List.nodup_cons.1 hd
      obtain ⟨-, -, h3⟩ := shfsCheckopenBlkdev_spec env d
      have hdisj : Disjoint (devs [d]) (devs ds) := by
        rw [Set.disjoint_left]
        rintro r ⟨e, he, rfl⟩ ⟨e', he', heq⟩
        obtain rfl := List.mem_singleton.1 he
        obtain rfl := Resource.dev.inj heq
        exact hnot he'
      refine (h3.append (ih hd) hdisj).congr ?_ fun r => ?_
      · rintro r (⟨e, he, rfl⟩ | ⟨e, he, rfl⟩)
        · exact ⟨e, List.mem_cons.2 (.inl (List.mem_singleton.1 he)), rfl⟩
        · exact ⟨e, List.mem_cons_of_mem d he, rfl⟩
      · rw [List.filter_cons]
        split <;> simp [devs]

/-! ## Members -/

/-- A member uuid stands for the first detected device that has it. -/
theorem find_detected (env : MountEnv) (u : Uuid) :
    ((detectMembers env env.bdId).1.find? fun x => u = x.hdr.memberUuid).map Detected.bd =
      deviceOf env u := by
  obtain ⟨hmap, hlabel⟩ := detectMembers_found env env.bdId
  unfold deviceOf usableDevs
  rw [← hmap, List.find?_map]
  congr 1
  refine List.find?_congr fun x hx => ?_
  show _ = (env.label x.bd).any fun h => decide (u = h.memberUuid)
  rw [hlabel x hx]
  rfl

theorem deviceOf_spec {u : Uuid} {d : Nat} (h : deviceOf env u = some d) :
    d ∈ usableDevs env ∧ ∃ l, env.label d = some l ∧ u = l.memberUuid := by
  refine ⟨List.mem_of_find?_eq_some h, ?_⟩
  have hp := List.find?_some h
  cases hl : env.label d with
  | none =>
      rw [hl] at hp
      cases hp
  | some l =>
      rw [hl] at hp
      exact ⟨l, rfl, of_decide_eq_true hp⟩

/-- The members that `load_vol_cconf` finds, and whether these are all. -/
theorem findMembers_eq (env : MountEnv) (h : HdrCommon) :
    findMembers h (detectMembers env env.bdId).1 =
      (List.range h.memberCount.toNat).filterMap fun i => deviceOf env (h.member i) := by
  unfold findMembers
  refine List.filterMap_congr fun i _ => ?_
  exact find_detected env (h.member i)

theorem findMembers_length (env : MountEnv) (h : HdrCommon) :
    (findMembers h (detectMembers env env.bdId).1).length = h.memberCount.toNat ↔
      ∀ i < h.memberCount.toNat, (deviceOf env (h.member i)).isSome := by
  have hlen := List.filterMap_length_eq_length (f := fun i => deviceOf env (h.member i))
    (l := List.range h.memberCount.toNat)
  rw [List.length_range] at hlen
  rw [findMembers_eq env, hlen]
  simp

/-- The members, if all are found, are distinct exactly if their uuids are. -/
theorem findMembers_nodup {h : HdrCommon}
    (hall : ∀ i < h.memberCount.toNat, (deviceOf env (h.member i)).isSome) :
    (findMembers h (detectMembers env env.bdId).1).Nodup ↔ DistinctMembers h := by
  have hmap : findMembers h (detectMembers env env.bdId).1 =
      (List.range h.memberCount.toNat).map fun i => (deviceOf env (h.member i)).getD 0 := by
    rw [findMembers_eq env, List.filterMap_eq_map_iff_forall_eq_some]
    intro i hi
    obtain ⟨d, hd⟩ := Option.isSome_iff_exists.1 (hall i (List.mem_range.1 hi))
    rw [hd]
    rfl
  rw [hmap, List.nodup_map_iff_inj_on List.nodup_range]
  unfold DistinctMembers
  simp only [List.mem_range]
  refine forall₂_congr fun i hi => forall₂_congr fun j hj => imp_congr_left ?_
  constructor
  · intro heq
    obtain ⟨d, hdi⟩ := Option.isSome_iff_exists.1 (hall i hi)
    obtain ⟨d', hdj⟩ := Option.isSome_iff_exists.1 (hall j hj)
    obtain ⟨-, l, hl, hu⟩ := deviceOf_spec hdi
    obtain ⟨-, l', hl', hu'⟩ := deviceOf_spec hdj
    rw [hdi, hdj] at heq
    obtain rfl : d = d' := heq
    rw [hl] at hl'
    rw [hu, hu', Option.some.inj hl']
  · intro heq
    rw [heq]

theorem mem_findMembers (env : MountEnv) (h : HdrCommon) (d : Nat) :
    d ∈ findMembers h (detectMembers env env.bdId).1 ↔
      ∃ i < h.memberCount.toNat, deviceOf env (h.member i) = some d := by
  rw [findMembers_eq env]
  simp

/-! ## The assertions on the sector sizes -/

/-- The alignments that `ioalign` takes on: none yet, or the largest sector size so far. -/
def AlignOk (a : UInt32) : Prop := a = 0 ∨ SsizeOk a.toNat

theorem mod_of_ssizeOk {a b : UInt32} (ha : SsizeOk a.toNat) (hb : SsizeOk b.toNat) (h : a ≤ b) :
    b % a = 0 := by
  obtain ⟨i, -, -, hi⟩ := ha
  obtain ⟨j, -, -, hj⟩ := hb
  rw [UInt32.le_iff_toNat_le, hi, hj, Nat.pow_le_pow_iff_right Nat.one_lt_two] at h
  rw [← UInt32.toNat_inj, UInt32.toNat_mod, hi, hj]
  exact Nat.mod_eq_zero_of_dvd (Nat.pow_dvd_pow 2 h)

/-- The assertions hold, and no stripe is shorter than a sector. -/
theorem setupMembers_spec (env : MountEnv) {s : UInt32} (hs : 4096 ≤ s.toNat) (ds : List Nat)
    (hds : ∀ d ∈ ds, SsizeOk (env.info d).sectorSize.toNat) {a : UInt32} (ha : AlignOk a) :
    ∃ a', setupMembers env s ds a =
      .ok (some (a', ds.map fun d => s / (env.info d).sectorSize)) := by
  induction ds generalizing a with
  | nil => exact ⟨a, rfl⟩
  | cons d ds ih =>
      have hd := hds d List.mem_cons_self
      have hnext : ∃ b, AlignOk b ∧ ioalignWith a (env.info d).sectorSize = .ok b := by
        unfold ioalignWith
        split
        · rename_i hgt
          refine ⟨_, .inr hd, if_pos ?_⟩
          exact ha.imp_right fun ha => mod_of_ssizeOk ha hd (UInt32.le_of_lt hgt)
        · rename_i hle
          refine ⟨a, ha, if_pos ?_⟩
          rcases ha with ha | ha
          · rw [ha]
            exact UInt32.zero_mod
          · exact mod_of_ssizeOk hd ha (UInt32.not_lt.1 hle)
      obtain ⟨b, hb, heq⟩ := hnext
      obtain ⟨a', hrest⟩ := ih (fun e he => hds e (List.mem_cons_of_mem d he)) hb
      have hne : s / (env.info d).sectorSize ≠ 0 := by
        obtain ⟨i, -, hi, he⟩ := hd
        intro h0
        have hdiv := congrArg UInt32.toNat h0
        rw [UInt32.toNat_div, he] at hdiv
        have hpow : 2 ^ i ≤ 2 ^ 12 := Nat.pow_le_pow_right Nat.two_pos hi
        have := Nat.div_pos (le_trans hpow hs) (Nat.two_pow_pos i)
        rw [hdiv] at this
        exact absurd this (by decide)
      refine ⟨a', ?_⟩
      rw [setupMembers, heq]
      show (if s / (env.info d).sectorSize = 0 then _ else _) = _
      rw [if_neg hne, hrest]
      rfl

/-! ## The label -/

/-- What `load_vol_cconf` has made of a label. -/
structure VolInfo.Of (env : MountEnv) (h : HdrCommon) (info : VolInfo) : Prop where
  stripemode : stripemodeOf h.memberStripemode = some info.geom.stripemode
  stripesize : info.geom.stripesize = h.memberStripesize.toNat
  nbMembers : info.geom.nbMembers = h.memberCount.toNat
  volsize : info.volsize = h.volSize
  member : info.member = findMembers h (detectMembers env env.bdId).1
  sfactor : info.sfactor =
    info.member.map fun d => h.memberStripesize / (env.info d).sectorSize

theorem firstLabel_eq {d0 : Detected} {det : List Detected}
    (hdet : (detectMembers env env.bdId).1 = d0 :: det) : firstLabel env = some d0.hdr := by
  obtain ⟨hmap, hlabel⟩ := detectMembers_found env env.bdId
  rw [hdet] at hmap hlabel
  unfold firstLabel usableDevs
  rw [← hmap]
  exact hlabel d0 List.mem_cons_self

theorem loadVolLabel_spec {d0 : Detected} {det : List Detected}
    (hdet : (detectMembers env env.bdId).1 = d0 :: det) (hcount : env.bdId.length ≤ maxNbTryBlkdevs)
    (hchk0 : env.malloc .chk0 = true) :
    ∃ r, loadVolLabel env d0 (d0 :: det) = .ok r ∧
      match r with
      | .error _ => ∀ h, ¬ Accepted env h
      | .ok info => Accepted env d0.hdr ∧ info.Of env d0.hdr := by
  have hfirst := firstLabel_eq hdet
  have hlen := findMembers_length env d0.hdr
  have hmem := mem_findMembers env d0.hdr
  rw [← hdet]
  have honly : ∀ h, Accepted env h → h = d0.hdr := fun h hacc =>
    Option.some.inj (hacc.first.symm.trans hfirst)
  unfold loadVolLabel
  cases hre : env.reread with
  | false => exact ⟨_, rfl, fun h hacc => by rw [hacc.reread] at hre; cases hre⟩
  | true =>
      cases hmode : stripemodeOf d0.hdr.memberStripemode with
      | none =>
          refine ⟨_, rfl, fun h hacc => ?_⟩
          obtain ⟨mode, hm, -⟩ := hacc.size
          rw [honly h hacc, hmode] at hm
          cases hm
      | some mode =>
          simp only [Bool.not_true, Bool.false_eq_true, if_false]
          split
          · rename_i hm
            refine ⟨_, rfl, fun h hacc => hm (hlen.2 ?_)⟩
            have := hacc.members
            rwa [honly h hacc] at this
          split
          · rename_i hs
            refine ⟨_, rfl, fun h hacc => hacc.stripesize ?_⟩
            rwa [honly h hacc]
          rename_i hm hs
          have hcases := stripesize_cases hs
          obtain ⟨a, hsetup⟩ := setupMembers_spec env (s := d0.hdr.memberStripesize) (by omega)
            (findMembers d0.hdr (detectMembers env env.bdId).1)
            (fun d hdmem => by
              obtain ⟨i, -, hdev⟩ := (hmem d).1 hdmem
              exact usable_ssize (List.mem_filter.1 (deviceOf_spec hdev).1).2) (a := 0) (.inl rfl)
          have hnum := not_not.1 hm
          rw [hsetup]
          simp only [bind, Except.bind]
          split
          · rename_i hany
            refine ⟨_, rfl, fun h hacc => ?_⟩
            obtain ⟨mode', hmode', hsize⟩ := hacc.size
            rw [honly h hacc] at hmode' hsize
            obtain rfl : mode = mode' := Option.some.inj (hmode.symm.trans hmode')
            obtain ⟨d, hdmem, hlt⟩ := List.any_eq_true.1 hany
            obtain ⟨i, hi, hdev⟩ := (hmem d).1 hdmem
            rw [hnum] at hlt
            exact absurd (hsize i hi d hdev) (UInt64.not_le.2 (of_decide_eq_true hlt))
          · rename_i hany
            refine ⟨_, rfl, ⟨hcount, hchk0, hfirst, hre, hlen.1 hnum, hs, mode, hmode, ?_⟩,
              hmode, rfl, hnum, rfl, rfl, rfl⟩
            intro i hi d hdev
            refine UInt64.not_lt.1 fun hlt => hany (List.any_eq_true.2 ⟨d, (hmem d).2 ⟨i, hi, hdev⟩, ?_⟩)
            rw [hnum]
            exact decide_eq_true hlt

/-- Chunk 0 and the usable devices, once the loop over the devices is through. -/
theorem opened_owns (hd : env.bdId.Nodup) :
    Owns (acquires [.obj .chk0] ++ (detectMembers env env.bdId).2) {r | r.stage = 0}
      ({r | r = .obj .chk0} ∪ devs (usableDevs env)) := by
  have hchk0 := Owns.acquires (List.nodup_singleton (Resource.obj .chk0))
  have hdet := detectMembers_owns env hd
  have hdisj : Disjoint {r | r ∈ [Resource.obj .chk0]} (devs env.bdId) := by
    rw [Set.disjoint_left]
    rintro r hr ⟨d, -, rfl⟩
    cases List.mem_singleton.1 hr
  refine (hchk0.append hdet hdisj).congr ?_ fun r => ?_
  · rintro r (hr | ⟨d, -, rfl⟩)
    · rw [List.mem_singleton.1 hr]
      rfl
    · rfl
  · show r ∈ [Resource.obj .chk0] ∨ _ ↔ _
    rw [List.mem_singleton]
    rfl

/-- Closing some of the usable devices, and giving back chunk 0. -/
theorem closed_owns (hd : env.bdId.Nodup) (p : Detected → Bool) :
    Owns (acquires [.obj .chk0] ++ (detectMembers env env.bdId).2 ++
        releases (((detectMembers env env.bdId).1.filter p).map fun d => .dev d.bd) ++
        releases [.obj .chk0]) {r | r.stage = 0}
      (devs (usableDevs env) \ {r | ∃ d ∈ (detectMembers env env.bdId).1, p d ∧ r = .dev d.bd}) := by
  obtain ⟨hmap, -⟩ := detectMembers_found env env.bdId
  have hnodup : ((detectMembers env env.bdId).1.map fun d => Resource.dev d.bd).Nodup := by
    have h := List.Nodup.map (f := Resource.dev) (fun a b h => Resource.dev.inj h)
      (hd.filter (usable env))
    rw [← hmap, List.map_map] at h
    exact h
  have hsub : ∀ r ∈ ((detectMembers env env.bdId).1.filter p).map fun d => Resource.dev d.bd,
      r ∈ ({r | r = .obj .chk0} ∪ devs (usableDevs env) : Set Resource) := by
    intro r hr
    obtain ⟨d, hdmem, rfl⟩ := List.mem_map.1 hr
    refine .inr ⟨d.bd, ?_, rfl⟩
    unfold usableDevs
    rw [← hmap]
    exact List.mem_map_of_mem (List.mem_filter.1 hdmem).1
  have hclose := (opened_owns hd).release (hnodup.sublist ((List.filter_sublist).map _)) hsub
  refine (hclose.release (List.nodup_singleton (Resource.obj .chk0)) ?_).congr
    (Set.Subset.refl _) fun r => ?_
  · intro r hr
    obtain rfl := List.mem_singleton.1 hr
    refine ⟨.inl rfl, fun hmem => ?_⟩
    obtain ⟨d, -, hdev⟩ := List.mem_map.1 hmem
    cases hdev
  · simp only [Set.mem_sdiff, Set.mem_union, Set.mem_ofPred_eq, List.mem_map, List.mem_filter,
      List.mem_singleton]
    constructor
    · rintro ⟨⟨hr | hr, hnot⟩, hchk0⟩
      · exact absurd hr hchk0
      · exact ⟨hr, fun ⟨d, hm, hp, he⟩ => hnot ⟨d, ⟨hm, hp⟩, he.symm⟩⟩
    · rintro ⟨hr, hnot⟩
      refine ⟨⟨.inr hr, fun ⟨d, ⟨hm, hp⟩, he⟩ => hnot ⟨d, hm, hp, he.symm⟩⟩, fun hchk0 => ?_⟩
      obtain ⟨d, -, hdev⟩ := hr
      rw [hchk0] at hdev
      cases hdev

/-- A volume that `load_vol_cconf` has set up comes from a label that is to be accepted. -/
theorem loadVolCconf_label {info : VolInfo} {log : Log}
    (hload : loadVolCconf env = .ok (.ok info, log)) : ∃ h, Accepted env h ∧ info.Of env h := by
  unfold loadVolCconf at hload
  by_cases hcount : env.bdId.length > maxNbTryBlkdevs
  · rw [if_pos hcount] at hload
    cases hload
  rw [if_neg hcount] at hload
  cases hchk0 : env.malloc .chk0 with
  | false =>
      rw [hchk0] at hload
      cases hload
  | true =>
      simp only [hchk0, Bool.not_true, Bool.false_eq_true, if_false] at hload
      split at hload
      · cases hload
      · rename_i d0 det hdet
        obtain ⟨r, hr, hspec⟩ := loadVolLabel_spec hdet (Nat.le_of_not_lt hcount) hchk0
        rw [hr] at hload
        cases r with
        | error e => cases hload
        | ok info' =>
            obtain rfl : info' = info := Except.ok.inj (Prod.mk.inj (Except.ok.inj hload)).1
            exact ⟨d0.hdr, hspec⟩

/-- `load_vol_cconf` returns, accepts exactly the labels that are to be accepted, and keeps open the
members of the volume alone. -/
theorem loadVolCconf_spec (hd : env.bdId.Nodup) :
    ∃ r log, loadVolCconf env = .ok (r, log) ∧
      match r with
      | .error _ => (∀ h, ¬ Accepted env h) ∧ Owns log {r | r.stage = 0} ∅
      | .ok info => ∃ h, Accepted env h ∧ info.Of env h ∧
          Owns log {r | r.stage = 0} (devs info.member) := by
  obtain ⟨hmap, -⟩ := detectMembers_found env env.bdId
  unfold loadVolCconf
  by_cases hcount : env.bdId.length > maxNbTryBlkdevs
  · rw [if_pos hcount]
    exact ⟨_, _, rfl, fun h hacc => absurd hacc.count (Nat.not_le.2 hcount), Owns.nil⟩
  rw [if_neg hcount]
  cases hchk0 : env.malloc .chk0 with
  | false =>
      refine ⟨_, _, rfl, ?_, Owns.nil⟩
      intro h hacc
      rw [hacc.chk0] at hchk0
      cases hchk0
  | true =>
      simp only [Bool.not_true, Bool.false_eq_true, if_false]
      split
      · rename_i hnone
        have howns := closed_owns hd fun _ => true
        rw [hnone] at hmap
        refine ⟨_, _, rfl, fun h hacc => ?_, ?_⟩
        · have hfirst := hacc.first
          unfold firstLabel usableDevs at hfirst
          rw [← hmap] at hfirst
          cases hfirst
        · simp only [hnone, List.filter_nil, List.map_nil, releases, List.append_nil] at howns
          refine howns.congr (Set.Subset.refl _) fun r => ?_
          unfold usableDevs
          rw [← hmap]
          simp [devs]
      · rename_i d0 det hdet
        obtain ⟨r, hr, hspec⟩ := loadVolLabel_spec hdet (Nat.le_of_not_lt hcount) hchk0
        rw [hr]
        cases r with
        | error e =>
            have howns := closed_owns hd fun _ => true
            rw [List.filter_true] at howns
            refine ⟨_, _, rfl, hspec, howns.congr (Set.Subset.refl _) fun r => ?_⟩
            rw [Set.mem_sdiff, Set.mem_empty_iff_false, iff_false, not_and_not_right]
            rintro ⟨d, hmem, rfl⟩
            unfold usableDevs at hmem
            rw [← hmap] at hmem
            obtain ⟨x, hx, rfl⟩ := List.mem_map.1 hmem
            exact ⟨x, hx, rfl, rfl⟩
        | ok info =>
            obtain ⟨hacc, hof⟩ := hspec
            refine ⟨_, _, rfl, d0.hdr, hacc, hof,
              (closed_owns hd fun d => decide (d.bd ∉ info.member)).congr (Set.Subset.refl _) fun r => ?_⟩
            constructor
            · rintro ⟨⟨d, hmem, rfl⟩, hnot⟩
              unfold usableDevs at hmem
              rw [← hmap] at hmem
              obtain ⟨x, hx, rfl⟩ := List.mem_map.1 hmem
              refine ⟨x.bd, by_contra fun hno => hnot ⟨x, hx, decide_eq_true hno, rfl⟩, rfl⟩
            · rintro ⟨d, hmem, rfl⟩
              have hdev := hmem
              rw [hof.member] at hdev
              obtain ⟨i, -, hi⟩ := (mem_findMembers _ _ _).1 hdev
              refine ⟨⟨d, (deviceOf_spec hi).1, rfl⟩, ?_⟩
              rintro ⟨x, -, hp, heq⟩
              obtain rfl := Resource.dev.inj heq
              exact of_decide_eq_true hp hmem

end Detect

end Minipython.Shfs
