/-
# Minipython.Tools.Mkfs — formatting a volume (shfs_mkfs.c)

`mkfs` sizes the volume by its smallest member, and writes an empty table and the labels. `Mkfs` is a
format that completed, with all that it has written. What the process meets is in `MkfsEnv`: memory,
the user, and whether each transfer succeeds. The transfers are numbered, as one request may be made twice:
the label of a member goes where its head was erased before. A transfer moves all of its bytes or fails.

The volume size is computed without a test that the smallest member holds anything at all.
`volume_inside_members_iff` says when the chunks that a completed format promises exist.

`mkfs_spec` says what a completed format has settled: the volume size is the one computed from the smallest
member, and the metadata fit into it. `SizeOk` is the condition on that member: it holds what the
computation takes off in front, a stripe or with combined stripes one for each other member, and its last
byte has an offset that an `off_t` can hold. Below the first bound the subtraction wraps, and the volume is
said to have almost `2 ^ 52` chunks of 4096 bytes.

The members have any sizes, also different ones. A chunk lies inside when the last byte of its last stripe
does.
-/
import Mathlib.Data.UInt
import Minipython.Shfs.Defs
import Minipython.Tools.MkfsArgs
import Minipython.Tools.Storage

namespace Minipython.Tools

open Minipython.Shfs

/-! ## Sizes -/

/-- `member_dsize`: the size of the smallest of `n` members. -/
def memberDsize (size : Nat → Nat) (n : Nat) : Nat :=
  (List.range' 1 (n - 1)).foldl (fun d m => if size m < d then size m else d) (size 0)

/-- `hdr_common->vol_size`, in 64-bit arithmetic. -/
def volSize (g : VolGeom) (memberDsize : Nat) : Nat :=
  let rest := wrap64 (memberDsize + u64Size - g.chunksize)
  match g.stripemode with
  | .combined => wrap64 (rest + g.stripesize) / g.stripesize
  | .independent => wrap64 (rest / g.chunksize * g.nbMembers)

/-- `metadata_size`. -/
def metadataSize (g : VolGeom) (c : HdrConfig) : Nat :=
  let htableSizeChks := shfsHtableSizeChunks c g.chunksize
  let ret := wrap64 (1 + 1 + htableSizeChks)
  if c.htableBakRef ≠ 0 then wrap64 (ret + htableSizeChks) else ret

/-! ## A format and its surroundings -/

/-- What is written by a transfer. -/
inductive Payload where
  | zeros
  | config (c : HdrConfig)
  | common (h : HdrCommon)

/-- A transfer to a member. -/
structure MkfsWrite where
  req : IoRequest
  data : Payload

/-- What `mkfs` meets. -/
structure MkfsEnv where
  /-- the outcomes of the allocations: of the two header buffers, of `chk1`, and of `strp0` -/
  chk0 : Bool
  chk1 : Bool
  strp0 : Bool
  /-- what `cancel` reads at each of its tests -/
  cancel : Nat → Bool
  confirmed : Bool
  fullerase : Bool
  uuid : Nat → Uuid
  /-- the seek and the transfer of this number return no error -/
  io : Nat → IoRequest → Bool

/-- The transfers of a list, the first of which has the number `i`, all succeed. -/
def MkfsEnv.allOk (env : MkfsEnv) : Nat → List MkfsWrite → Bool
  | _, [] => true
  | i, w :: ws => env.io i w.req && env.allOk (i + 1) ws

/-- A format that completed. -/
structure Mkfs where
  hdrCommon : HdrCommon
  hdrConfig : HdrConfig
  writes : List MkfsWrite

/-- The common header of a new volume. -/
def newHdrCommon (g : VolGeom) (uuid : Nat → Uuid) (volSize : Nat) : HdrCommon where
  magic := shfsMagic
  version := (shfsMajor, shfsMinor)
  volByteorder := sboLittleendian
  volSize := UInt64.ofNat volSize
  memberStripemode := g.stripemode.code
  memberStripesize := UInt32.ofNat g.stripesize
  memberUuid := 0
  memberCount := UInt8.ofNat g.nbMembers
  member := uuid

/-- The transfers of `sync_erase_chunk`: all of them from one buffer of zeros. -/
def syncEraseRequests (g : Striping) (start len : Nat) : List IoRequest :=
  let r := strpRange g start len
  forStripes g.stripesize (fun strp _ => syncIoStripe g strp 0) (r.2 - r.1) r.1 0

/-- The first 4096 bytes of a member. -/
def headRequest (m : Nat) : IoRequest := ⟨m, 0, 4096, 0⟩

/-- The writes of `mkfs` in order. -/
def mkfsWrites (g : VolGeom) (hdr : HdrCommon) (c : HdrConfig) (volSize : Nat) (fullerase : Bool) :
    List MkfsWrite :=
  let members := List.range g.nbMembers
  let erased :=
    if fullerase then syncEraseRequests g.striping 2 (wrap64 (volSize + u64Size - 2))
    else syncEraseRequests g.striping c.htableRef.toNat (shfsHtableSizeChunks c g.chunksize)
  (members.map fun m => ⟨headRequest m, .zeros⟩) ++ (erased.map fun r => ⟨r, .zeros⟩) ++
    ((syncIoRequests g.striping 1 1).map fun r => ⟨r, .config c⟩) ++
    members.map fun m => ⟨headRequest m, .common { hdr with memberUuid := hdr.member m }⟩

/-- `mkfs`, on members of the sizes `size`. Without a result the process has ended before. -/
def mkfs (a : MkfsArgs) (size : Nat → UInt64) (env : MkfsEnv) : Option Mkfs :=
  let g := a.geom
  let volSize := volSize g (memberDsize (fun m => (size m).toNat) g.nbMembers)
  let hdr := newHdrCommon g env.uuid volSize
  let c := a.hdrConfig
  let writes := mkfsWrites g hdr c volSize env.fullerase
  if !env.chk0 || !env.chk1 then none
  else if metadataSize g c > volSize then none
  else if env.cancel 0 || !env.confirmed || env.cancel 1 then none
  else if !env.strp0 then none
  else if env.cancel 2 || env.cancel 3 then none
  else if env.allOk 0 writes then some ⟨hdr, c, writes⟩ else none

section AllOk

variable {env : MkfsEnv} {ws : List MkfsWrite} {i : Nat}

theorem MkfsEnv.allOk_append (env : MkfsEnv) (ws ws' : List MkfsWrite) (i : Nat) :
    env.allOk i (ws ++ ws') = (env.allOk i ws && env.allOk (i + ws.length) ws') := by
  induction ws generalizing i with
  | nil => rfl
  | cons w ws ih =>
      rw [List.cons_append, MkfsEnv.allOk, MkfsEnv.allOk, ih, List.length_cons, Bool.and_assoc,
        Nat.add_right_comm i 1, Nat.add_assoc i]

theorem MkfsEnv.allOk_of_forall (h : ∀ i, ∀ w ∈ ws, env.io i w.req = true) : env.allOk i ws = true := by
  induction ws generalizing i with
  | nil => rfl
  | cons w ws ih =>
      rw [MkfsEnv.allOk, h i w List.mem_cons_self, Bool.true_and]
      exact ih fun j x hx => h j x (List.mem_cons_of_mem w hx)

end AllOk

/-! ## The smallest member -/

theorem memberDsize_spec (size : Nat → Nat) {n : Nat} (hn : 0 < n) :
    (∃ m < n, memberDsize size n = size m) ∧ ∀ m < n, memberDsize size n ≤ size m := by
  have hloop : ∀ k, (∃ m < k + 1, memberDsize size (k + 1) = size m) ∧
      ∀ m < k + 1, memberDsize size (k + 1) ≤ size m := by
    intro k
    induction k with
    | zero =>
        refine ⟨⟨0, Nat.one_pos, rfl⟩, fun m hm => ?_⟩
        rw [Nat.lt_one_iff.1 hm]
        exact Nat.le_refl _
    | succ k ih =>
        have hnext : memberDsize size (k + 1 + 1) =
            if size (k + 1) < memberDsize size (k + 1) then size (k + 1)
            else memberDsize size (k + 1) := by
          unfold memberDsize
          rw [Nat.add_sub_cancel, Nat.add_sub_cancel, List.range'_concat, List.foldl_append,
            Nat.one_mul, Nat.add_comm 1 k]
          rfl
        obtain ⟨⟨m, hm, heq⟩, hle⟩ := ih
        rw [hnext]
        split
        · rename_i hlt
          refine ⟨⟨k + 1, Nat.lt_succ_self _, rfl⟩, fun m' hm' => ?_⟩
          rcases Nat.lt_succ_iff_lt_or_eq.1 hm' with h | h
          · exact le_trans (Nat.le_of_lt hlt) (hle m' h)
          · rw [h]
        · rename_i hge
          refine ⟨⟨m, Nat.lt_succ_of_lt hm, heq⟩, fun m' hm' => ?_⟩
          rcases Nat.lt_succ_iff_lt_or_eq.1 hm' with h | h
          · exact hle m' h
          · rw [h]
            exact Nat.le_of_not_lt hge
  have h := hloop (n - 1)
  rwa [Nat.sub_add_cancel hn] at h

/-! ## The volume size -/

/-- The bytes of a member that do not count for the volume. -/
def reserve (g : VolGeom) : Nat :=
  match g.stripemode with
  | .combined => (g.nbMembers - 1) * g.stripesize
  | .independent => g.stripesize

/-- What is left of the smallest member, with the wrap-around of the subtraction. -/
def usable (g : VolGeom) (d : Nat) : Nat := wrap64 (d + u64Size - reserve g)

section Usable

variable {g : VolGeom} {d : Nat}

theorem stripesize_bounds (g : VolGeom) : 4096 ≤ g.stripesize ∧ g.stripesize ≤ 32768 := by
  have := g.stripesize_ok
  omega

theorem reserve_lt (g : VolGeom) : reserve g < 2 ^ 20 := by
  obtain ⟨-, hs⟩ := stripesize_bounds g
  unfold reserve
  cases g.stripemode with
  | independent =>
      show g.stripesize < 2 ^ 20
      omega
  | combined =>
      have hn : g.nbMembers - 1 ≤ 15 := by
        have := g.nbMembers_le
        omega
      have hmul : (g.nbMembers - 1) * g.stripesize ≤ 15 * 32768 := Nat.mul_le_mul hn hs
      show (g.nbMembers - 1) * g.stripesize < 2 ^ 20
      omega

theorem volSize_eq (g : VolGeom) (d : Nat) : volSize g d = match g.stripemode with
    | .combined => usable g d / g.stripesize
    | .independent => usable g d / g.stripesize * g.nbMembers := by
  obtain ⟨hs, hs'⟩ := stripesize_bounds g
  have hr := reserve_lt g
  have hc := g.chunksize_bounds
  unfold volSize usable
  cases hmode : g.stripemode with
  | combined =>
      have hchunk : g.chunksize = reserve g + g.stripesize := by
        rw [g.chunksize_eq, reserve, hmode]
        show g.stripesize * g.nbMembers = (g.nbMembers - 1) * g.stripesize + g.stripesize
        rw [← Nat.succ_mul, Nat.succ_eq_add_one, Nat.sub_add_cancel g.nbMembers_pos, Nat.mul_comm]
      show wrap64 (wrap64 (d + u64Size - g.chunksize) + g.stripesize) / g.stripesize = _
      have hsum : wrap64 (wrap64 (d + u64Size - g.chunksize) + g.stripesize) =
          wrap64 (d + u64Size - reserve g) := by
        unfold wrap64
        rw [Nat.mod_add_mod]
        congr 1
        simp only [u64Size] at *
        omega
      rw [hsum]
  | independent =>
      have hchunk : g.chunksize = g.stripesize := by rw [g.chunksize_eq, hmode]
      have hres : reserve g = g.stripesize := by rw [reserve, hmode]
      show wrap64 (wrap64 (d + u64Size - g.chunksize) / g.chunksize * g.nbMembers) = _
      rw [hchunk, hres]
      apply wrap64_of_lt
      have hlt := wrap64_lt (d + u64Size - g.stripesize)
      have hdiv : wrap64 (d + u64Size - g.stripesize) / g.stripesize < 2 ^ 52 := by
        rw [Nat.div_lt_iff_lt_mul (by omega)]
        have : 2 ^ 52 * 4096 ≤ 2 ^ 52 * g.stripesize := Nat.mul_le_mul_left _ hs
        simp only [u64Size] at *
        omega
      have hmul := Nat.mul_le_mul (Nat.le_of_lt hdiv) g.nbMembers_le
      simp only [u64Size] at *
      omega

/-- The last chunk of the volume ends in the last whole stripe of what is usable. -/
theorem lastRound_volSize (g : VolGeom) (d : Nat) :
    g.striping.lastRound (volSize g d) = usable g d / g.stripesize := by
  have hn := g.nbMembers_pos
  rw [Striping.lastRound_eq, volSize_eq]
  show (match g.stripemode with
    | .combined => _
    | .independent => (_ + g.nbMembers - 1) / g.nbMembers) = _
  cases g.stripemode with
  | combined => rfl
  | independent =>
      show (usable g d / g.stripesize * g.nbMembers + g.nbMembers - 1) / g.nbMembers = _
      rw [Nat.add_sub_assoc hn, Nat.mul_comm, Nat.mul_add_div hn,
        Nat.div_eq_of_lt (Nat.sub_lt hn Nat.one_pos), Nat.add_zero]

/-- The first stripes of all members and what is usable make up the smallest member. -/
def SizeOk (g : VolGeom) (d : Nat) : Prop := reserve g ≤ d ∧ d < 2 ^ 63 + reserve g

instance (g : VolGeom) (d : Nat) : Decidable (SizeOk g d) := inferInstanceAs (Decidable (_ ∧ _))

theorem sizeOk_iff (hd : d < u64Size) : SizeOk g d ↔ usable g d < 2 ^ 63 := by
  have hr := reserve_lt g
  unfold SizeOk usable wrap64
  simp only [u64Size] at *
  omega

/-- A multiple of the stripe size below a larger one leaves room for a stripe. -/
theorem round_up {s x y : Nat} (hs : s ∣ y) (hx : x * s < y) : (x + 1) * s ≤ y := by
  obtain ⟨z, rfl⟩ := hs
  rw [Nat.mul_comm] at hx
  rw [Nat.mul_comm]
  exact Nat.mul_le_mul_left s (Nat.lt_of_mul_lt_mul_left hx)

/-- The chunks up to the volume size do not wrap around. -/
theorem fits_volSize {c : Nat} (hc : c ≤ volSize g d) : g.striping.Fits c 1 := by
  have hround := g.striping.lastRound_mono hc
  rw [lastRound_volSize] at hround
  have hlt : g.striping.lastRound c * g.stripesize < u64Size := by
    refine lt_of_le_of_lt (Nat.mul_le_mul_right _ hround) ?_
    exact lt_of_le_of_lt (Nat.div_mul_le_self _ _) (wrap64_lt _)
  have hdvd : g.stripesize ∣ u64Size :=
    Dvd.dvd.trans g.striping.stripesize_dvd (Nat.pow_dvd_pow 2 (by omega : 63 ≤ 64))
  exact (g.striping.fits_iff c).2 (round_up hdvd hlt)

end Usable

/-! ## The promise -/

/-- All transfers of the chunks of a volume lie behind the first stripe and before the end of their
members. -/
def InsideMembers (g : VolGeom) (size : Nat → UInt64) (volSize : Nat) : Prop :=
  ∀ c, 1 ≤ c → c ≤ volSize → ∀ r ∈ syncIoRequests g.striping c 1,
    (g.stripesize : Int) ≤ r.start ∧ r.start + r.len ≤ (size r.member).toNat

section Inside

variable {g : VolGeom} {size : Nat → UInt64} {d : Nat}

/-- The rounds of the stripes of a chunk. -/
theorem round_bounds (g : Striping) {c i : Nat} (h1 : 1 ≤ c) (hi : i < g.perChunk) :
    1 ≤ (g.firstStrp c + i) / g.nbMembers ∧ (g.firstStrp c + i) / g.nbMembers ≤ g.lastRound c := by
  refine ⟨?_, Nat.div_le_div_right ?_⟩
  · rw [Nat.one_le_div_iff g.nbMembers_pos]
    exact le_trans (g.firstStrp_ge h1) (Nat.le_add_right _ _)
  · rw [g.firstStrp_add, Nat.one_mul]
    omega

theorem stripesize_le_reserve (hg : g.stripemode = .combined → 1 < g.nbMembers) :
    g.stripesize ≤ reserve g := by
  unfold reserve
  cases hmode : g.stripemode with
  | independent => exact Nat.le_refl _
  | combined => exact Nat.le_mul_of_pos_left _ (Nat.sub_pos_of_lt (hg hmode))

theorem inside_of_sizeOk (hg : g.stripemode = .combined → 1 < g.nbMembers)
    (hd : ∀ m < g.nbMembers, d ≤ (size m).toNat) (h : SizeOk g d) :
    InsideMembers g size (volSize g d) := by
  intro c h1 hc r hr
  obtain ⟨i, hi, rfl⟩ := (mem_syncIoRequests (fits_volSize hc)).1 hr
  have hlast := g.striping.lastRound_mono hc
  rw [lastRound_volSize] at hlast
  obtain ⟨hlo, hhi⟩ := round_bounds g.striping h1 hi
  have hmember := hd _ (Nat.mod_lt (g.striping.firstStrp c + i) g.nbMembers_pos)
  have hres := stripesize_le_reserve hg
  have huse : usable g d = d - reserve g := by
    have hr := reserve_lt g
    unfold usable wrap64 SizeOk at *
    simp only [u64Size] at *
    omega
  have hstart := Nat.mul_le_mul_right g.stripesize (le_trans hhi hlast)
  have hle := Nat.div_mul_le_self (usable g d) g.stripesize
  have hge := Nat.mul_le_mul_right g.stripesize hlo
  unfold SizeOk at h
  show (g.stripesize : Int) ≤ offT _ ∧ offT _ + (g.stripesize : Nat) ≤ _
  have hpos : (g.striping.firstStrp c + i) / g.striping.nbMembers * g.striping.stripesize < 2 ^ 63 :=
    lt_of_le_of_lt (le_trans hstart hle) (by omega)
  rw [offT, if_pos hpos]
  change 1 * g.striping.stripesize ≤ _ at hge
  change _ ≤ (size ((g.striping.firstStrp c + i) % g.striping.nbMembers)).toNat at hmember
  have hs : g.striping.stripesize = g.stripesize := rfl
  rw [hs] at hge ⊢
  change _ * g.stripesize ≤ _ at hstart
  generalize (g.striping.firstStrp c + i) / g.striping.nbMembers * g.stripesize = x at *
  generalize (size ((g.striping.firstStrp c + i) % g.striping.nbMembers)).toNat = y at *
  omega

theorem sizeOk_of_inside (hd : d < u64Size) (h1 : 1 ≤ volSize g d)
    (h : InsideMembers g size (volSize g d)) : SizeOk g d := by
  have hper := g.striping.perChunk_pos
  have hlast : g.striping.firstStrp (volSize g d) + (g.striping.perChunk - 1) =
      g.striping.firstStrp (volSize g d + 1) - 1 := by
    rw [g.striping.firstStrp_add, Nat.one_mul]
    omega
  have hmem := (mem_syncIoRequests (fits_volSize (Nat.le_refl (volSize g d)))).2
    ⟨g.striping.perChunk - 1, Nat.sub_lt hper Nat.one_pos, rfl⟩
  have hstart := (h _ h1 (Nat.le_refl _) _ hmem).1
  have hround : (g.striping.firstStrp (volSize g d) + (g.striping.perChunk - 1)) /
      g.striping.nbMembers = usable g d / g.stripesize := by
    rw [hlast]
    exact lastRound_volSize g d
  simp only [hround] at hstart
  have hlt : usable g d / g.stripesize * g.stripesize < 2 ^ 63 := by
    have hle := Nat.div_mul_le_self (usable g d) g.stripesize
    have hwrap : usable g d < u64Size := wrap64_lt _
    change (g.stripesize : Int) ≤ offT (usable g d / g.stripesize * g.stripesize) at hstart
    unfold offT at hstart
    split at hstart
    · assumption
    · simp only [u64Size] at *
      omega
  apply (sizeOk_iff hd).2
  refine lt_of_lt_of_le ?_ (round_up g.striping.stripesize_dvd hlt)
  show usable g d < (usable g d / g.stripesize + 1) * g.stripesize
  rw [Nat.mul_comm]
  exact Nat.lt_mul_div_succ _ g.striping.stripesize_pos

end Inside

theorem volSize_lt (g : VolGeom) (d : Nat) : volSize g d < u64Size := by
  unfold volSize
  cases g.stripemode with
  | combined => exact lt_of_le_of_lt (Nat.div_le_self _ _) (wrap64_lt _)
  | independent => exact wrap64_lt _

/-- The table is small enough for the sum of the metadata not to wrap. -/
theorem metadataSize_eq (a : MkfsArgs) : metadataSize a.geom a.hdrConfig =
    2 + shfsHtableSizeChunks a.hdrConfig a.geom.chunksize := by
  have hchunk : 16 ≤ shfsHentriesPerChunk a.geom.chunksize := by
    unfold shfsHentriesPerChunk shfsHentrySize
    have := a.geom.chunksize_bounds
    omega
  have hlt : shfsHtableSizeChunks a.hdrConfig a.geom.chunksize < 2 ^ 60 := by
    unfold shfsHtableSizeChunks divRoundUp
    rw [Nat.div_lt_iff_lt_mul (by omega)]
    have hmul := Nat.mul_le_mul_left (2 ^ 60) hchunk
    have hwrap := wrap64_lt
      (shfsHtableNbEntries a.hdrConfig + shfsHentriesPerChunk a.geom.chunksize - 1)
    simp only [u64Size] at *
    omega
  unfold metadataSize
  rw [if_neg (fun h => h rfl), wrap64_of_lt]
  simp only [u64Size]
  omega

/-- What a completed format has passed. -/
theorem mkfs_spec {a : MkfsArgs} {size : Nat → UInt64} {env : MkfsEnv} {v : Mkfs}
    (h : mkfs a size env = some v) :
    v.hdrCommon.volSize.toNat = volSize a.geom (memberDsize (fun m => (size m).toNat) a.nbDevs) ∧
      metadataSize a.geom a.hdrConfig ≤
        volSize a.geom (memberDsize (fun m => (size m).toNat) a.nbDevs) := by
  simp only [mkfs] at h
  split at h
  · cases h
  split at h
  · cases h
  rename_i hmeta
  split at h
  · cases h
  split at h
  · cases h
  split at h
  · cases h
  split at h
  · obtain rfl := Option.some.inj h
    refine ⟨?_, Nat.le_of_not_lt hmeta⟩
    show (UInt64.ofNat _).toNat = _
    rw [UInt64.toNat_ofNat', Nat.mod_eq_of_lt (volSize_lt _ _)]
    rfl
  · cases h

/-- The chunks that a completed format promises lie inside the members exactly if the smallest member is
neither too small nor beyond what an `off_t` can address. Too small is less than what is taken off in front,
a stripe or with combined stripes one for each other member; the subtraction wraps then. -/
theorem volume_inside_members_iff {a : MkfsArgs} {size : Nat → UInt64} {env : MkfsEnv} {v : Mkfs}
    (h : mkfs a size env = some v) :
    InsideMembers a.geom size v.hdrCommon.volSize.toNat ↔
      SizeOk a.geom (memberDsize (fun m => (size m).toNat) a.nbDevs) := by
  obtain ⟨hvol, hmeta⟩ := mkfs_spec h
  obtain ⟨⟨m, -, hmin⟩, hle⟩ := memberDsize_spec (fun m => (size m).toNat) a.nbDevs_pos
  rw [hvol]
  constructor
  · intro hinside
    refine sizeOk_of_inside ?_ ?_ hinside
    · rw [hmin]
      exact (size m).toNat_lt
    · rw [metadataSize_eq] at hmeta
      omega
  · intro hsize
    apply inside_of_sizeOk _ hle hsize
    intro hmode
    show 1 < a.nbDevs
    change (if a.combinedStriping && decide (1 < a.nbDevs) then StripeMode.combined else .independent)
      = .combined at hmode
    split at hmode
    · rename_i hcond
      exact of_decide_eq_true (Bool.and_eq_true_iff.1 hcond).2
    · cases hmode

/-- A format of regular files, which grow when something is written behind their end. -/
def plainEnv : MkfsEnv where
  chk0 := true
  chk1 := true
  strp0 := true
  cancel := fun _ => false
  confirmed := true
  fullerase := false
  uuid := fun m => BitVec.ofNat 128 m
  io := fun _ r => 0 ≤ r.start

/-- A file of four stripes holds the label, the configuration, the table and a chunk. -/
theorem volume_inside_members_four :
    ∃ v, mkfs tinyArgs (fun _ => 16384) plainEnv = some v ∧ v.hdrCommon.volSize = 3 ∧
      InsideMembers tinyArgs.geom (fun _ => 16384) 3 := by
  have hv : ∃ v, mkfs tinyArgs (fun _ => 16384) plainEnv = some v ∧ v.hdrCommon.volSize = 3 :=
    ⟨_, rfl, by decide⟩
  obtain ⟨v, hv, hsize⟩ := hv
  have h := (volume_inside_members_iff hv).2 (by decide)
  rw [hsize] at h
  exact ⟨v, hv, hsize, h⟩

/-- A file of 2048 bytes is formatted as a volume of `2 ^ 52 - 1` chunks of 4096 bytes, the first of
which is behind the end of the file. -/
theorem volume_outside_tiny :
    ∃ v, mkfs tinyArgs (fun _ => 2048) plainEnv = some v ∧ v.hdrCommon.volSize = 2 ^ 52 - 1 ∧
      ∃ r ∈ syncIoRequests tinyArgs.geom.striping 1 1, r.member = 0 ∧ r.start = 4096 ∧
        r.len = 4096 ∧ ¬InsideMembers tinyArgs.geom (fun _ => 2048) v.hdrCommon.volSize.toNat := by
  refine ⟨_, rfl, by decide, ⟨0, 4096, 4096, 0⟩, by decide, rfl, rfl, rfl, fun h => ?_⟩
  have hr := (h 1 (by decide) (by decide) ⟨0, 4096, 4096, 0⟩ (by decide)).2
  exact absurd hr (by decide)

end Minipython.Tools
