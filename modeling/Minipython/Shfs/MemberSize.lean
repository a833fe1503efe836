/-
# Minipython.Shfs.MemberSize — are the members large enough? (shfs.c, load_vol_cconf)

`load_vol_cconf` compares the size of each member with `min_member_size`. For independent stripes that
bound is rounded down, and both bounds are taken modulo `2 ^ 64`, so a label can pass although the volume
does not fit. `reads_inside_iff` says which of the accepted volumes fit.

`MembersHold` is what is needed, in numbers without a bound: with combined stripes every member has `volsize
+ 1` of them, for chunk 0 is the label; with independent ones member `m` has the stripes that fall to it
when the chunks are dealt round, and one in front. `ReadsInside` is about the reads themselves: every
request that a read of a chunk of the volume makes lies inside the device of its member. The two are
equivalent (`readsInside_iff`), whatever the check has let pass.

Devices have sizes of 64 bits in bytes, and a stripe is a multiple of every sector size.
`reads_outside_pair` is a volume of two members that passes the check, and a read behind the end of the
second one.
-/
import Minipython.Shfs.MountLabel

namespace Minipython.Shfs

open Minipython.Lib
open Minipython.Lib.Ledger

/-- The device of a member. -/
def VolInfo.bd (info : VolInfo) (m : Nat) : Nat := info.member.getD m 0

/-- The requests of `shfs_aio_chunk` for one chunk of the volume. -/
def VolInfo.requests (info : VolInfo) (addr : Nat) : List SectorRequest :=
  aioRequests info.geom.striping (fun m => (info.sfactor.getD m 0).toNat) addr 1

/-- The size of the device of a member, in bytes. -/
def memberSize (env : MountEnv) (info : VolInfo) (m : Nat) : Nat :=
  (env.info (info.bd m)).blkdevSize.toNat

/-- Whatever chunk is asked for, the sectors lie inside the devices. -/
def ReadsInside (env : MountEnv) (info : VolInfo) : Prop :=
  ∀ addr, 1 ≤ addr → addr ≤ info.volsize.toNat → ∀ r ∈ info.requests addr,
    (r.start + r.len) * (env.info (info.bd r.member)).sectorSize.toNat ≤ memberSize env info r.member

/-- Every member has room for its stripes of the chunks up to `volsize`, and for the first one. -/
def MembersHold (env : MountEnv) (info : VolInfo) : Prop :=
  match info.geom.stripemode with
  | .combined => ∀ m < info.geom.nbMembers, 1 ≤ info.volsize.toNat →
      (info.volsize.toNat + 1) * info.geom.stripesize ≤ memberSize env info m
  | .independent => ∀ m < info.geom.nbMembers, m < info.volsize.toNat →
      ((info.volsize.toNat - 1 - m) / info.geom.nbMembers + 2) * info.geom.stripesize ≤
        memberSize env info m

/-! ## Devices -/

/-- No device counts for more than a terabyte, even if its size wraps around. -/
theorem blkdevSize_le (i : BlkdevInfo) : i.blkdevSize.toNat ≤ 2 ^ 40 := by
  have hmax : maxDisksize.toNat = 2 ^ 40 := by decide
  unfold BlkdevInfo.blkdevSize BlkdevInfo.blkdevSectors
  split
  · rw [UInt64.toNat_mul, UInt64.toNat_div, hmax]
    exact le_trans (Nat.mod_le _ _) (Nat.div_mul_le_self _ _)
  · rename_i hle
    rw [← hmax]
    exact UInt64.le_iff_toNat_le.1 (UInt64.not_lt.1 hle)

section Requests

variable {env : MountEnv} {info : VolInfo} {h : HdrCommon}

/-- The sectors of a stripe make up the stripe. -/
theorem sfactor_mul (hof : info.Of env h) {m : Nat} (hm : m < info.geom.nbMembers) :
    (info.sfactor.getD m 0).toNat * (env.info (info.bd m)).sectorSize.toNat = info.geom.stripesize := by
  have hlen : m < info.member.length := by
    rw [info.member_length]
    exact hm
  have hbd : info.bd m = info.member[m] := by
    rw [VolInfo.bd, List.getD_eq_getElem?_getD, List.getElem?_eq_getElem hlen]
    rfl
  have hmem : info.bd m ∈ findMembers h (detectMembers env env.bdId).1 := by
    rw [← hof.member, hbd]
    exact List.getElem_mem hlen
  obtain ⟨i, -, hdev⟩ := (mem_findMembers _ _ _).1 hmem
  have hss := usable_ssize (List.mem_filter.1 (deviceOf_spec hdev).1).2
  have hsf : (info.sfactor.getD m 0) = h.memberStripesize / (env.info (info.bd m)).sectorSize := by
    rw [hof.sfactor, List.getD_eq_getElem?_getD, List.getElem?_map, List.getElem?_eq_getElem hlen, hbd]
    rfl
  rw [hsf, UInt32.toNat_div, ← hof.stripesize]
  obtain ⟨k, -, hk, he⟩ := hss
  obtain ⟨j, hj, -, hs⟩ := info.geom.striping.stripesize_pow
  have hs' : info.geom.stripesize = 2 ^ j := hs
  rw [he, hs']
  exact Nat.div_mul_cancel (Nat.pow_dvd_pow 2 (by omega : k ≤ j))

/-- The stripes of the chunks of a volume, from the second round on. -/
def HoldsStrp (env : MountEnv) (info : VolInfo) : Prop :=
  ∀ strp, info.geom.nbMembers ≤ strp → strp < info.geom.striping.firstStrp (info.volsize.toNat + 1) →
    (strp / info.geom.nbMembers + 1) * info.geom.stripesize ≤
      memberSize env info (strp % info.geom.nbMembers)

/-- A stripe read from its sectors. -/
theorem request_end (hof : info.Of env h) (strp : Nat)
    (hwrap : (strp / info.geom.nbMembers + 1) * info.geom.stripesize ≤ u64Size) :
    (wrap64 (strp / info.geom.nbMembers * (info.sfactor.getD (strp % info.geom.nbMembers) 0).toNat) +
        (info.sfactor.getD (strp % info.geom.nbMembers) 0).toNat) *
        (env.info (info.bd (strp % info.geom.nbMembers))).sectorSize.toNat =
      (strp / info.geom.nbMembers + 1) * info.geom.stripesize := by
  have hsf := sfactor_mul hof (Nat.mod_lt strp info.geom.nbMembers_pos)
  have hpos : 0 < info.geom.stripesize := info.geom.striping.stripesize_pos
  generalize (info.sfactor.getD (strp % info.geom.nbMembers) 0).toNat = sf at *
  generalize (env.info (info.bd (strp % info.geom.nbMembers))).sectorSize.toNat = ss at *
  have hss : 1 ≤ ss := Nat.pos_of_ne_zero fun h0 => by
    rw [h0, Nat.mul_zero] at hsf
    omega
  have hle : strp / info.geom.nbMembers * sf ≤ strp / info.geom.nbMembers * info.geom.stripesize := by
    refine Nat.mul_le_mul_left _ ?_
    rw [← hsf]
    exact Nat.le_mul_of_pos_right _ hss
  have hlt : strp / info.geom.nbMembers * sf < u64Size := by
    rw [Nat.succ_mul] at hwrap
    omega
  rw [wrap64_of_lt hlt, ← Nat.succ_mul, Nat.mul_assoc, hsf]

/-- The first round of stripes that a member of the size `d` does not hold, but for that of chunk 0. -/
theorem exists_first_bad {d s q : Nat} (hs : 0 < s) (hs' : s ≤ 32768) (hd : d ≤ 2 ^ 40) (hq : 1 ≤ q)
    (hbad : d < (q + 1) * s) : ∃ r, 1 ≤ r ∧ r ≤ q ∧ d < (r + 1) * s ∧ (r + 1) * s ≤ u64Size := by
  have hlt : d < (d / s + 1) * s := by
    rw [Nat.mul_comm]
    exact Nat.lt_mul_div_succ d hs
  have hdiv : d / s * s ≤ d := Nat.div_mul_le_self d s
  by_cases h0 : d / s = 0
  · refine ⟨1, Nat.le_refl 1, hq, ?_, ?_⟩
    · rw [h0] at hlt
      omega
    · unfold u64Size
      omega
  · refine ⟨d / s, Nat.pos_of_ne_zero h0, ?_, hlt, ?_⟩
    · exact Nat.le_of_lt_succ ((Nat.div_lt_iff_lt_mul hs).2 hbad)
    · rw [Nat.succ_mul]
      unfold u64Size
      omega

/-- The reads stay inside exactly if every stripe of the volume does. -/
theorem readsInside_iff (hof : info.Of env h) : ReadsInside env info ↔ HoldsStrp env info := by
  have hn : 0 < info.geom.nbMembers := info.geom.nbMembers_pos
  have hs : 0 < info.geom.stripesize := info.geom.striping.stripesize_pos
  have hs' : info.geom.stripesize ≤ 32768 := by
    have := info.geom.stripesize_ok
    omega
  have hsize : ∀ m, memberSize env info m ≤ 2 ^ 40 := fun m => blkdevSize_le _
  constructor
  · intro hin strp hlo hhi
    by_contra hbad
    have hm := Nat.mod_lt strp hn
    obtain ⟨q, hq1, hq, hqbad, hqfits⟩ := exists_first_bad hs hs' (hsize _)
      ((Nat.one_le_div_iff hn).2 hlo) (Nat.lt_of_not_le hbad)
    have hdiv : (info.geom.nbMembers * q + strp % info.geom.nbMembers) / info.geom.nbMembers = q := by
      rw [Nat.mul_add_div hn, Nat.div_eq_of_lt hm, Nat.add_zero]
    have hmod : (info.geom.nbMembers * q + strp % info.geom.nbMembers) % info.geom.nbMembers =
        strp % info.geom.nbMembers := by
      rw [Nat.mul_add_mod, Nat.mod_eq_of_lt hm]
    have hfirst : info.geom.nbMembers ≤ info.geom.nbMembers * q + strp % info.geom.nbMembers :=
      le_trans (Nat.le_mul_of_pos_right _ hq1) (Nat.le_add_right _ _)
    have hle : info.geom.nbMembers * q + strp % info.geom.nbMembers ≤ strp := by
      have hmul := Nat.mul_le_mul_left info.geom.nbMembers hq
      have hsplit := Nat.div_add_mod strp info.geom.nbMembers
      omega
    obtain ⟨c, i, hc1, hi, hstrp, hround⟩ := info.geom.striping.exists_chunk hfirst
    have hround' : info.geom.striping.lastRound c = q := hround.trans hdiv
    have hcv : c ≤ info.volsize.toNat := by
      by_contra hgt
      have hmono := info.geom.striping.firstStrp_mono (Nat.lt_of_not_le hgt)
      rw [Nat.succ_eq_add_one] at hmono
      omega
    have hfits : info.geom.striping.Fits c 1 := by
      rw [Striping.fits_iff, hround']
      exact hqfits
    have hread := hin c hc1 hcv _ ((info.geom.striping.mem_aioRequests hfits).2 ⟨i, hi, rfl⟩)
    rw [← hstrp] at hread
    have hend := request_end hof
      (info.geom.nbMembers * q + strp % info.geom.nbMembers) (by rwa [hdiv])
    refine absurd (le_trans (le_of_eq hend.symm) hread) ?_
    rw [hdiv]
    show ¬ _ ≤ memberSize env info
      ((info.geom.nbMembers * q + strp % info.geom.nbMembers) % info.geom.nbMembers)
    rw [hmod]
    exact Nat.not_le.2 hqbad
  · intro hall addr h1 haddr r hr
    have hper := info.geom.striping.perChunk_pos
    have hge : info.geom.nbMembers ≤ info.geom.striping.firstStrp addr :=
      info.geom.striping.firstStrp_ge h1
    have hnext := info.geom.striping.firstStrp_add addr 1
    rw [Nat.one_mul] at hnext
    have hmono := info.geom.striping.firstStrp_mono (Nat.succ_le_succ haddr)
    rw [Nat.succ_eq_add_one, Nat.succ_eq_add_one] at hmono
    have hfits : info.geom.striping.Fits addr 1 := by
      refine le_trans (hall _ ?_ ?_) (le_trans (hsize _) (by decide))
      · omega
      · omega
    obtain ⟨i, hi, rfl⟩ := (info.geom.striping.mem_aioRequests hfits).1 hr
    have hstrp := hall (info.geom.striping.firstStrp addr + i) (by omega) (by omega)
    have hend := request_end hof (info.geom.striping.firstStrp addr + i)
      (le_trans hstrp (le_trans (hsize _) (by decide)))
    exact le_trans (le_of_eq hend) hstrp

/-- The last stripe that a volume has on a member decides about all of them. -/
theorem holdsStrp_iff (env : MountEnv) (info : VolInfo) : HoldsStrp env info ↔ MembersHold env info := by
  have hn : 0 < info.geom.nbMembers := info.geom.nbMembers_pos
  have hround : ∀ q m, m < info.geom.nbMembers →
      (info.geom.nbMembers * q + m) / info.geom.nbMembers = q ∧
        (info.geom.nbMembers * q + m) % info.geom.nbMembers = m := fun q m hm => by
    rw [Nat.mul_add_div hn, Nat.div_eq_of_lt hm, Nat.add_zero, Nat.mul_add_mod, Nat.mod_eq_of_lt hm]
    exact ⟨rfl, rfl⟩
  unfold HoldsStrp MembersHold Striping.firstStrp
  show (∀ strp, info.geom.nbMembers ≤ strp → strp < (match info.geom.stripemode with
    | .combined => (info.volsize.toNat + 1) * info.geom.nbMembers
    | .independent => info.volsize.toNat + 1 + (info.geom.nbMembers - 1)) → _) ↔ _
  generalize info.volsize.toNat = v
  cases info.geom.stripemode with
  | combined =>
      constructor
      · intro hall m hm hv
        obtain ⟨hdiv, hmod⟩ := hround v m hm
        have hlo : info.geom.nbMembers * 1 ≤ info.geom.nbMembers * v := Nat.mul_le_mul_left _ hv
        have hstrp := hall (info.geom.nbMembers * v + m) (by omega) (by
          show _ < (v + 1) * info.geom.nbMembers
          rw [Nat.succ_mul, Nat.mul_comm v]
          omega)
        rwa [hdiv, hmod] at hstrp
      · intro hall strp hlo hhi
        have hq : strp / info.geom.nbMembers < v + 1 := (Nat.div_lt_iff_lt_mul hn).2 hhi
        have hq1 : 1 ≤ strp / info.geom.nbMembers := (Nat.one_le_div_iff hn).2 hlo
        exact le_trans (Nat.mul_le_mul_right _ (by omega)) (hall _ (Nat.mod_lt strp hn) (by omega))
  | independent =>
      constructor
      · intro hall m hm hv
        obtain ⟨hdiv, hmod⟩ := hround ((v - 1 - m) / info.geom.nbMembers + 1) m hm
        have hle := Nat.mul_div_le (v - 1 - m) info.geom.nbMembers
        have hstrp := hall (info.geom.nbMembers * ((v - 1 - m) / info.geom.nbMembers + 1) + m)
          (by rw [Nat.mul_succ]; omega) (by
            show _ < v + 1 + (info.geom.nbMembers - 1)
            rw [Nat.mul_succ]
            omega)
        rwa [hdiv, hmod] at hstrp
      · intro hall strp hlo hhi
        change strp < v + 1 + (info.geom.nbMembers - 1) at hhi
        have hsplit := Nat.div_add_mod strp info.geom.nbMembers
        have hm := Nat.mod_lt strp hn
        obtain ⟨q, hq⟩ := Nat.exists_eq_add_of_le ((Nat.one_le_div_iff hn).2 hlo)
        rw [hq, Nat.mul_add, Nat.mul_one] at hsplit
        have hqle : q ≤ (v - 1 - strp % info.geom.nbMembers) / info.geom.nbMembers := by
          rw [Nat.le_div_iff_mul_le hn, Nat.mul_comm]
          omega
        rw [hq]
        refine le_trans (Nat.mul_le_mul_right _ ?_) (hall _ hm (by omega))
        omega

end Requests

/-! ## The check -/

/-- The reads of an accepted volume stay inside its devices exactly if every member holds its stripes. The
first is about every request that the read of a chunk from 1 to `volsize` makes, the second about numbers:
the stripes that fall to a member, and one in front of them, are not more than it has. -/
theorem reads_inside_iff {env : MountEnv} {info : VolInfo} {log : Log}
    (hload : loadVolCconf env = .ok (.ok info, log)) : ReadsInside env info ↔ MembersHold env info := by
  obtain ⟨h, -, hof⟩ := loadVolCconf_label hload
  exact (readsInside_iff hof).trans (holdsStrp_iff env info)

/-- Two devices of 16 sectors, and a label of three chunks of 4096 bytes on both in turn. -/
def pairMount : MountEnv where
  bdId := [0, 1]
  openOk := fun _ => true
  info := fun _ => ⟨512, 16⟩
  label := fun d => some
    { magic := shfsMagic
      version := (shfsMajor, shfsMinor)
      volByteorder := sboLittleendian
      volSize := 3
      memberStripemode := shfsSmIndependent
      memberStripesize := 4096
      memberUuid := BitVec.ofNat 128 d
      memberCount := 2
      member := fun i => BitVec.ofNat 128 i }
  reread := true
  malloc := fun _ => true
  chk1 := none
  setup := fun _ => true
  chunk := fun _ => none

/-- With 24 sectors on the first device, the reads stay inside. -/
theorem reads_inside_pair : ∃ info log,
    loadVolCconf { pairMount with info := fun d => if d = 0 then ⟨512, 24⟩ else ⟨512, 16⟩ } =
        .ok (.ok info, log) ∧ info.volsize = 3 ∧
      ReadsInside { pairMount with info := fun d => if d = 0 then ⟨512, 24⟩ else ⟨512, 16⟩ } info := by
  refine ⟨_, _, rfl, rfl, (reads_inside_iff rfl).2 ?_⟩
  intro m hm hv
  obtain rfl | rfl : m = 0 ∨ m = 1 := by
    have hm2 : m < 2 := hm
    omega
  · decide
  · decide

/-- Chunk 3 is the third stripe of the first device, which has two: the label is accepted all the same. -/
theorem reads_outside_pair : ∃ info log, loadVolCconf pairMount = .ok (.ok info, log) ∧
    info.volsize = 3 ∧ memberSize pairMount info 0 = 8192 ∧
    info.requests 3 = [⟨0, 16, 8, 0⟩] ∧ ¬ ReadsInside pairMount info := by
  refine ⟨_, _, rfl, rfl, by decide, by decide, fun hin => ?_⟩
  have h := hin 3 (by decide) (by decide) ⟨0, 16, 8, 0⟩ (by decide)
  exact absurd h (by decide)

end Minipython.Shfs
