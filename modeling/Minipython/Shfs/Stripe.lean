/-
# Minipython.Shfs.Stripe — chunks on the members of a volume (shfs.c, shfs_aio_chunk)

A request for chunks is a range of stripes, and the stripes go round the members. `combined` gives a
chunk one stripe of each member; `independent` makes each stripe a chunk, and starts behind the first
stripe of every member.

The loop over the stripes is `forStripes`, with what is done for one stripe as a parameter: the tools
work in bytes, `aioRequests` in sectors of each device.
-/
import Minipython.Shfs.Aio

namespace Minipython.Shfs

open Minipython.Lib

/-! ## Stripes of a request -/

/-- A stripe layout in the widths of its fields, `uint8_t` and `uint32_t`. -/
structure Striping where
  stripemode : StripeMode
  stripesize : Nat
  nbMembers : Nat
  stripesize_pow : ∃ j, 12 ≤ j ∧ j < 32 ∧ stripesize = 2 ^ j
  nbMembers_pos : 0 < nbMembers
  nbMembers_lt : nbMembers < 256

/-- The layouts that the checks admit. -/
def VolGeom.striping (g : VolGeom) : Striping where
  stripemode := g.stripemode
  stripesize := g.stripesize
  nbMembers := g.nbMembers
  stripesize_pow := by
    obtain h | h | h | h := g.stripesize_ok
    · exact ⟨12, by decide, by decide, h⟩
    · exact ⟨13, by decide, by decide, h⟩
    · exact ⟨14, by decide, by decide, h⟩
    · exact ⟨15, by decide, by decide, h⟩
  nbMembers_pos := g.nbMembers_pos
  nbMembers_lt := lt_of_le_of_lt g.nbMembers_le (by decide)

/-- `start_s` and `end_s` of a request, in 64-bit arithmetic. -/
def strpRange (g : Striping) (start len : Nat) : Nat × Nat :=
  match g.stripemode with
  | .combined => (wrap64 (start * g.nbMembers), wrap64 (wrap64 (start + len) * g.nbMembers))
  | .independent =>
      let startS := wrap64 (start + (g.nbMembers - 1))
      (startS, wrap64 (startS + len))

/-- `for (strp = start_s; strp < end_s; ++strp)` around a body that does one request, with the buffer
moved on by a stripe each time. The first argument is the number of turns. -/
def forStripes {ρ : Type} (stripesize : Nat) (body : Nat → Nat → ρ) : Nat → Nat → Nat → List ρ
  | 0, _, _ => []
  | k + 1, strp, ptr => body strp ptr :: forStripes stripesize body k (strp + 1) (ptr + stripesize)

/-! ## Requests of the unikernel -/

/-- `blkdev_async_io` for one stripe; `buf` is the place of its data in the buffer of the call. -/
structure SectorRequest where
  member : Nat
  start : Nat
  len : Nat
  buf : Nat
  deriving DecidableEq, Repr

/-- A transfer of bytes of a member, at an `off_t`. -/
structure IoRequest where
  member : Nat
  start : Int
  len : Nat
  buf : Nat
  deriving DecidableEq, Repr

/-- A 64-bit unsigned number as an `off_t`. -/
def offT (n : Nat) : Int := if n < 2 ^ 63 then n else (n : Int) - u64Size

/-- The requests of `shfs_aio_chunk`. -/
def aioRequests (g : Striping) (sfactor : Nat → Nat) (start len : Nat) : List SectorRequest :=
  let r := strpRange g start len
  forStripes g.stripesize
    (fun strp ptr =>
      let m := strp % g.nbMembers
      { member := m, start := wrap64 (strp / g.nbMembers * sfactor m), len := sfactor m, buf := ptr })
    (r.2 - r.1) r.1 0

/-- `aio_offset` and `aio_nbytes` that `blkdev_async_io_nocheck` hands to the device. -/
def SectorRequest.bytes (ssize : Nat → Nat) (r : SectorRequest) : IoRequest where
  member := r.member
  start := offT (wrap64 (r.start * ssize r.member))
  len := wrap64 (r.len * ssize r.member)
  buf := r.buf

/-- The sector sizes that `shfs_checkopen_blkdev` admits. -/
def SsizeOk (ssize : Nat) : Prop := ∃ i, 9 ≤ i ∧ i ≤ 12 ∧ ssize = 2 ^ i

/-- `sfactor` of a member, as `load_vol_cconf` sets it. -/
def sfactorOf (g : Striping) (ssize : Nat) : Nat := g.stripesize / ssize

/-- Where the byte `k` of the buffer of a call goes: the member and the offset there. -/
def place (rs : List IoRequest) (k : Nat) : Option (Nat × Int) :=
  (rs.find? fun r => r.buf ≤ k ∧ k < r.buf + r.len).map fun r => (r.member, r.start + (k - r.buf : Nat))

/-- The same request for a buffer that begins `d` bytes earlier. -/
def IoRequest.shift (d : Nat) (r : IoRequest) : IoRequest := { r with buf := r.buf + d }

/-! ## The loop -/

section ForStripes

variable {ρ ρ' : Type} {stripesize : Nat} {body : Nat → Nat → ρ}

theorem forStripes_map (f : ρ → ρ') (k strp ptr : Nat) :
    (forStripes stripesize body k strp ptr).map f =
      forStripes stripesize (fun strp ptr => f (body strp ptr)) k strp ptr := by
  induction k generalizing strp ptr with
  | zero => rfl
  | succ k ih => rw [forStripes, forStripes, List.map_cons, ih]

theorem forStripes_append (k k' strp ptr : Nat) :
    forStripes stripesize body (k + k') strp ptr =
      forStripes stripesize body k strp ptr ++
        forStripes stripesize body k' (strp + k) (ptr + k * stripesize) := by
  induction k generalizing strp ptr with
  | zero => rw [Nat.zero_add, Nat.zero_mul, forStripes, List.nil_append, Nat.add_zero, Nat.add_zero]
  | succ k ih =>
      have hk : k + 1 + k' = k + k' + 1 := by omega
      have hs : strp + 1 + k = strp + (k + 1) := by omega
      have hp : ptr + stripesize + k * stripesize = ptr + (k + 1) * stripesize := by
        rw [Nat.succ_mul]
        omega
      rw [hk, forStripes, forStripes, List.cons_append, ih, hs, hp]

theorem mem_forStripes {k strp ptr : Nat} {r : ρ} :
    r ∈ forStripes stripesize body k strp ptr ↔
      ∃ i < k, r = body (strp + i) (ptr + i * stripesize) := by
  induction k generalizing strp ptr with
  | zero => simp [forStripes]
  | succ k ih =>
      have hmove : ∀ i, body (strp + 1 + i) (ptr + stripesize + i * stripesize) =
          body (strp + (i + 1)) (ptr + (i + 1) * stripesize) := fun i => by
        rw [Nat.succ_mul]
        congr 1 <;> omega
      rw [forStripes, List.mem_cons, ih]
      constructor
      · rintro (h | ⟨i, hi, h⟩)
        · exact ⟨0, Nat.succ_pos k, by rw [h, Nat.add_zero, Nat.zero_mul, Nat.add_zero]⟩
        · exact ⟨i + 1, by omega, h.trans (hmove i)⟩
      · rintro ⟨i, hi, h⟩
        cases i with
        | zero =>
            rw [Nat.add_zero, Nat.zero_mul, Nat.add_zero] at h
            exact .inl h
        | succ i => exact .inr ⟨i, by omega, h.trans (hmove i).symm⟩

end ForStripes

/-! ## Requests that fit into 64 bits -/

namespace Striping

variable (g : Striping)

theorem stripesize_ge : 4096 ≤ g.stripesize := by
  obtain ⟨j, hj, -, h⟩ := g.stripesize_pow
  have hpow : 2 ^ 12 ≤ 2 ^ j := Nat.pow_le_pow_right Nat.two_pos hj
  rwa [h]

theorem stripesize_dvd : g.stripesize ∣ 2 ^ 63 := by
  obtain ⟨j, -, hj, h⟩ := g.stripesize_pow
  rw [h]
  exact Nat.pow_dvd_pow 2 (by omega : j ≤ 63)

theorem stripesize_pos : 0 < g.stripesize := lt_of_lt_of_le (Nat.succ_pos 4095) g.stripesize_ge

/-- The stripes of one chunk. -/
def perChunk : Nat :=
  match g.stripemode with
  | .combined => g.nbMembers
  | .independent => 1

/-- The first stripe of a chunk, without wrap-around. -/
def firstStrp (c : Nat) : Nat :=
  match g.stripemode with
  | .combined => c * g.nbMembers
  | .independent => c + (g.nbMembers - 1)

/-- The bytes of one chunk. -/
def chunkLen : Nat := g.perChunk * g.stripesize

/-- The last stripe of a request ends at byte `2 ^ 64` of its member or before. -/
def Fits (start len : Nat) : Prop :=
  ((g.firstStrp (start + len) - 1) / g.nbMembers + 1) * g.stripesize ≤ u64Size

instance (start len : Nat) : Decidable (g.Fits start len) := inferInstanceAs (Decidable (_ ≤ _))

theorem perChunk_pos : 0 < g.perChunk := by
  unfold perChunk
  cases g.stripemode with
  | combined => exact g.nbMembers_pos
  | independent => exact Nat.one_pos

theorem firstStrp_add (c len : Nat) :
    g.firstStrp (c + len) = g.firstStrp c + len * g.perChunk := by
  unfold firstStrp perChunk
  cases g.stripemode with
  | combined => exact Nat.add_mul c len g.nbMembers
  | independent =>
      show c + len + (g.nbMembers - 1) = c + (g.nbMembers - 1) + len * 1
      omega

/-- No chunk but chunk 0 has a stripe in the first round. -/
theorem firstStrp_ge {c : Nat} (hc : 1 ≤ c) : g.nbMembers ≤ g.firstStrp c := by
  unfold firstStrp
  cases g.stripemode with
  | combined => exact Nat.le_mul_of_pos_left _ hc
  | independent =>
      show g.nbMembers ≤ c + (g.nbMembers - 1)
      omega

theorem le_firstStrp (c : Nat) : c ≤ g.firstStrp c := by
  unfold firstStrp
  cases g.stripemode with
  | combined => exact Nat.le_mul_of_pos_right _ g.nbMembers_pos
  | independent => exact Nat.le_add_right _ _

/-- The round of stripes in which a chunk ends. -/
def lastRound (c : Nat) : Nat := (g.firstStrp (c + 1) - 1) / g.nbMembers

theorem lastRound_eq (c : Nat) : g.lastRound c = match g.stripemode with
    | .combined => c
    | .independent => (c + g.nbMembers - 1) / g.nbMembers := by
  have hn := g.nbMembers_pos
  unfold lastRound firstStrp
  cases g.stripemode with
  | combined =>
      have hlast : (c + 1) * g.nbMembers - 1 = g.nbMembers * c + (g.nbMembers - 1) := by
        rw [Nat.succ_mul, Nat.mul_comm]
        omega
      show ((c + 1) * g.nbMembers - 1) / g.nbMembers = c
      rw [hlast, Nat.mul_add_div hn, Nat.div_eq_of_lt (Nat.sub_lt hn Nat.one_pos), Nat.add_zero]
  | independent =>
      show (c + 1 + (g.nbMembers - 1) - 1) / g.nbMembers = (c + g.nbMembers - 1) / g.nbMembers
      congr 1
      omega

theorem lastRound_mono {c c' : Nat} (h : c ≤ c') : g.lastRound c ≤ g.lastRound c' := by
  obtain ⟨d, rfl⟩ := Nat.exists_eq_add_of_le h
  refine Nat.div_le_div_right (Nat.sub_le_sub_right ?_ 1)
  rw [Nat.add_right_comm, g.firstStrp_add (c + 1)]
  exact Nat.le_add_right _ _

theorem firstStrp_mono {c c' : Nat} (h : c ≤ c') : g.firstStrp c ≤ g.firstStrp c' := by
  obtain ⟨d, rfl⟩ := Nat.exists_eq_add_of_le h
  rw [g.firstStrp_add]
  exact Nat.le_add_right _ _

/-- Every stripe behind the first round belongs to a chunk, which ends in the round of the stripe. -/
theorem exists_chunk {strp : Nat} (h : g.nbMembers ≤ strp) : ∃ c i, 1 ≤ c ∧ i < g.perChunk ∧
    strp = g.firstStrp c + i ∧ g.lastRound c = strp / g.nbMembers := by
  have hn := g.nbMembers_pos
  have hlast := g.lastRound_eq
  unfold firstStrp perChunk
  cases hmode : g.stripemode with
  | combined =>
      simp only [hmode] at hlast
      refine ⟨strp / g.nbMembers, strp % g.nbMembers, ?_, Nat.mod_lt _ hn, ?_, hlast _⟩
      · rwa [Nat.one_le_div_iff hn]
      · rw [Nat.mul_comm]
        exact (Nat.div_add_mod _ _).symm
  | independent =>
      simp only [hmode] at hlast
      refine ⟨strp - (g.nbMembers - 1), 0, by omega, Nat.one_pos, ?_, ?_⟩
      · show strp = strp - (g.nbMembers - 1) + (g.nbMembers - 1) + 0
        omega
      · rw [hlast]
        congr 1
        omega

/-- A stripe that ends at byte `2 ^ 64` or before. -/
theorem strp_lt {strp : Nat} (h : (strp / g.nbMembers + 1) * g.stripesize ≤ u64Size) :
    strp / g.nbMembers * g.stripesize < u64Size ∧ strp + 1 < u64Size := by
  have hpos := g.stripesize_pos
  rw [Nat.succ_mul] at h
  refine ⟨by omega, ?_⟩
  have h1 : strp / g.nbMembers * 4096 ≤ strp / g.nbMembers * g.stripesize :=
    Nat.mul_le_mul_left _ g.stripesize_ge
  have h2 : strp / g.nbMembers * g.nbMembers ≤ strp / g.nbMembers * 255 :=
    Nat.mul_le_mul_left _ (Nat.le_of_lt_succ g.nbMembers_lt)
  have h3 := Nat.div_add_mod strp g.nbMembers
  have h4 := Nat.mod_lt strp g.nbMembers_pos
  have h5 := g.nbMembers_lt
  rw [Nat.mul_comm] at h3
  simp only [u64Size] at *
  omega

theorem Fits.strpRange {start len : Nat} (h : g.Fits start len) :
    strpRange g start len = (g.firstStrp start, g.firstStrp start + len * g.perChunk) := by
  have hlast := (g.strp_lt h).2
  have hsum := g.firstStrp_add start len
  have hle := g.le_firstStrp (start + len)
  have hfirst : g.firstStrp start < u64Size := by omega
  have hend : g.firstStrp (start + len) < u64Size := by omega
  unfold Shfs.strpRange
  rw [← hsum]
  unfold firstStrp at *
  cases hmode : g.stripemode with
  | combined =>
      simp only [hmode] at *
      rw [wrap64_of_lt hfirst, wrap64_of_lt (by omega : start + len < u64Size), wrap64_of_lt hend]
  | independent =>
      simp only [hmode] at *
      rw [wrap64_of_lt hfirst, wrap64_of_lt (by omega)]
      congr 1
      omega

/-- A part of a request fits as well. -/
theorem Fits.mono {start len start' len' : Nat} (h : g.Fits start len)
    (hle : start' + len' ≤ start + len) : g.Fits start' len' := by
  have hsum : g.firstStrp (start' + len') ≤ g.firstStrp (start + len) := by
    obtain ⟨d, hd⟩ := Nat.exists_eq_add_of_le hle
    rw [hd, g.firstStrp_add (start' + len')]
    exact Nat.le_add_right _ _
  exact le_trans (Nat.mul_le_mul_right _ (Nat.succ_le_succ
    (Nat.div_le_div_right (Nat.sub_le_sub_right hsum 1)))) h

/-- A chunk fits if its last round does. -/
theorem fits_iff (c : Nat) : g.Fits c 1 ↔ (g.lastRound c + 1) * g.stripesize ≤ u64Size := Iff.rfl

/-- The requests of one chunk: a stripe of its range each. -/
theorem mem_aioRequests {c : Nat} (h : g.Fits c 1) {sfactor : Nat → Nat} {r : SectorRequest} :
    r ∈ aioRequests g sfactor c 1 ↔ ∃ i < g.perChunk,
      r = ⟨(g.firstStrp c + i) % g.nbMembers,
        wrap64 ((g.firstStrp c + i) / g.nbMembers * sfactor ((g.firstStrp c + i) % g.nbMembers)),
        sfactor ((g.firstStrp c + i) % g.nbMembers), i * g.stripesize⟩ := by
  have hcount : g.firstStrp c + 1 * g.perChunk - g.firstStrp c = g.perChunk := by omega
  unfold aioRequests
  rw [Fits.strpRange g h]
  simp only [hcount, mem_forStripes, Nat.zero_add]

end Striping

end Minipython.Shfs
