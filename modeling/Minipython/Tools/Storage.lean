/-
# Minipython.Tools.Storage — chunk I/O of the tools (tools_common.c, sync_io_chunk)

The tools and the unikernel map chunks to members on their own. `aioRequests_bytes` says that the two
agree on every request, also where 64-bit addresses wrap. Where they do not wrap, `stripe_mapping` adds
that no two bytes share a place, that chunk 0 is left alone, and that a long request is nothing but its
chunks in order.

A chunk is cut into stripes, and stripe `n` of the volume lies on member `n mod nb_members`. The tools
compute a byte offset for each stripe, the unikernel a sector, from its own copies of the geometry.
`SsizeOk` says that a sector size divides the stripe, so that a sector number is a byte offset divided by
it. The offsets are products of 64 bits in both programs, and wrap alike.

`Fits` is that they do not wrap: the last stripe of the chunks ends at or below byte `2 ^ 64` of its member.
No device is larger. `stripe_mapping_wraps` is a chunk number behind that bound that falls on the first
stripe.
-/
import Minipython.Shfs.Stripe

namespace Minipython.Tools

open Minipython.Shfs

/-- One turn of the loop of `sync_io_chunk`: seek to `startb` and transfer a stripe. -/
def syncIoStripe (g : Striping) (strp ptr : Nat) : IoRequest where
  member := strp % g.nbMembers
  start := offT (wrap64 (strp / g.nbMembers * g.stripesize))
  len := g.stripesize
  buf := ptr

/-- The transfers of `sync_io_chunk`. -/
def syncIoRequests (g : Striping) (start len : Nat) : List IoRequest :=
  let r := strpRange g start len
  forStripes g.stripesize (syncIoStripe g) (r.2 - r.1) r.1 0

/-! ## Bytes and sectors -/

theorem wrap64_mul (a b : Nat) : wrap64 (wrap64 a * b) = wrap64 (a * b) := by
  unfold wrap64
  exact Nat.mod_mul_mod a b u64Size

theorem sfactorOf_mul (g : Striping) {ssize : Nat} (h : SsizeOk ssize) :
    sfactorOf g ssize * ssize = g.stripesize := by
  obtain ⟨i, -, hi, rfl⟩ := h
  obtain ⟨j, hj, -, hg⟩ := g.stripesize_pow
  apply Nat.div_mul_cancel
  rw [hg]
  exact Nat.pow_dvd_pow 2 (by omega : i ≤ j)

theorem stripesize_lt (g : Striping) : g.stripesize < u64Size := by
  obtain ⟨j, -, hj, hg⟩ := g.stripesize_pow
  rw [hg]
  exact Nat.pow_lt_pow_right (by decide) (by omega)

/-- The unikernel's sectors are the tools' bytes, for every request. -/
theorem aioRequests_bytes (g : Striping) {ssize : Nat → Nat} (hs : ∀ m < g.nbMembers, SsizeOk (ssize m))
    (start len : Nat) :
    (aioRequests g (fun m => sfactorOf g (ssize m)) start len).map (SectorRequest.bytes ssize) =
      syncIoRequests g start len := by
  unfold aioRequests syncIoRequests
  rw [forStripes_map]
  congr 1
  funext strp ptr
  have hsf := sfactorOf_mul g (hs _ (Nat.mod_lt strp g.nbMembers_pos))
  unfold SectorRequest.bytes syncIoStripe
  simp only [wrap64_mul, Nat.mul_assoc, hsf, wrap64_of_lt (stripesize_lt g)]

/-! ## Where a byte goes -/

theorem find_forStripes (g : Striping) (strp ptr : Nat) {n k : Nat} (hk : k < n * g.stripesize) :
    (forStripes g.stripesize (syncIoStripe g) n strp ptr).find?
        (fun r => r.buf ≤ ptr + k ∧ ptr + k < r.buf + r.len) =
      some (syncIoStripe g (strp + k / g.stripesize) (ptr + k / g.stripesize * g.stripesize)) := by
  have hpos := g.stripesize_pos
  induction n generalizing strp ptr k with
  | zero => omega
  | succ n ih =>
      rw [forStripes]
      by_cases hlt : k < g.stripesize
      · rw [List.find?_cons_of_pos, Nat.div_eq_of_lt hlt, Nat.zero_mul, Nat.add_zero, Nat.add_zero]
        exact decide_eq_true ⟨Nat.le_add_right ptr k, Nat.add_lt_add_left hlt ptr⟩
      · rw [List.find?_cons_of_neg]
        · obtain ⟨d, rfl⟩ := Nat.exists_eq_add_of_le (Nat.le_of_not_lt hlt)
          rw [Nat.succ_mul] at hk
          have hrest := @ih (strp + 1) (ptr + g.stripesize) d (by omega)
          have hdiv : (g.stripesize + d) / g.stripesize = d / g.stripesize + 1 := by
            rw [Nat.add_comm, Nat.add_div_right d hpos]
          rw [hdiv, ← Nat.add_assoc ptr, Nat.succ_mul, hrest]
          congr 2 <;> omega
        · intro h
          exact hlt (Nat.lt_of_add_lt_add_left (of_decide_eq_true h).2)

/-- The stripe that holds the byte `k` of a chunk. -/
def strpOf (g : Striping) (c k : Nat) : Nat := g.firstStrp c + k / g.stripesize

section Fits

variable {g : Striping} {c k : Nat}

/-- All stripes of a chunk end at byte `2 ^ 64` or before. -/
theorem strpOf_fits (h : g.Fits c 1) (hk : k < g.chunkLen) :
    (strpOf g c k / g.nbMembers + 1) * g.stripesize ≤ u64Size := by
  have hj : k / g.stripesize < g.perChunk := (Nat.div_lt_iff_lt_mul g.stripesize_pos).2 hk
  have hle : strpOf g c k ≤ g.firstStrp (c + 1) - 1 := by
    rw [g.firstStrp_add, Nat.one_mul]
    unfold strpOf
    omega
  exact le_trans (Nat.mul_le_mul_right _ (Nat.succ_le_succ (Nat.div_le_div_right hle))) h

theorem place_chunk (h : g.Fits c 1) (hk : k < g.chunkLen) :
    place (syncIoRequests g c 1) k = some (strpOf g c k % g.nbMembers,
      offT (strpOf g c k / g.nbMembers * g.stripesize) + (k % g.stripesize : Nat)) := by
  have hfind := find_forStripes g (g.firstStrp c) 0 hk
  have hwrap := (g.strp_lt (strpOf_fits h hk)).1
  have hcount : g.firstStrp c + 1 * g.perChunk - g.firstStrp c = g.perChunk := by omega
  have hmod : k - k / g.stripesize * g.stripesize = k % g.stripesize := by
    rw [Nat.mul_comm]
    exact (Nat.mod_eq_sub k g.stripesize).symm
  unfold place syncIoRequests
  rw [Striping.Fits.strpRange g h]
  simp only [Nat.zero_add] at hfind
  simp only [hcount, hfind, Option.map_some, syncIoStripe]
  unfold strpOf at hwrap ⊢
  rw [wrap64_of_lt hwrap, hmod]

/-- The transfers of one chunk: a stripe of its range each. -/
theorem mem_syncIoRequests (h : g.Fits c 1) {r : IoRequest} :
    r ∈ syncIoRequests g c 1 ↔ ∃ i < g.perChunk, r = ⟨(g.firstStrp c + i) % g.nbMembers,
      offT ((g.firstStrp c + i) / g.nbMembers * g.stripesize), g.stripesize, i * g.stripesize⟩ := by
  have hcount : g.firstStrp c + 1 * g.perChunk - g.firstStrp c = g.perChunk := by omega
  unfold syncIoRequests
  rw [Striping.Fits.strpRange g h]
  simp only [hcount, mem_forStripes, Nat.zero_add, syncIoStripe]
  refine exists_congr fun i => and_congr_right fun hi => ?_
  have hle : g.firstStrp c + i ≤ g.firstStrp (c + 1) - 1 := by
    rw [g.firstStrp_add, Nat.one_mul]
    omega
  have hfits := le_trans (Nat.mul_le_mul_right g.stripesize
    (Nat.succ_le_succ (Nat.div_le_div_right (c := g.nbMembers) hle))) h
  rw [wrap64_of_lt (g.strp_lt hfits).1]

/-- The offset of a byte determines its stripe and its place there. -/
theorem offT_inj {s x y i j : Nat} (hs : 0 < s) (hx : (x + 1) * s ≤ u64Size) (hy : (y + 1) * s ≤ u64Size)
    (hi : i < s) (hj : j < s) (h : offT (x * s) + i = offT (y * s) + j) : x = y ∧ i = j := by
  rw [Nat.succ_mul] at hx hy
  have hsum : x * s + i = y * s + j := by
    unfold offT u64Size at *
    split at h <;> split at h <;> omega
  have hdiv : ∀ z d : Nat, d < s → (z * s + d) / s = z := fun z d hd => by
    rw [Nat.mul_comm, Nat.mul_add_div hs, Nat.div_eq_of_lt hd, Nat.add_zero]
  have hxy : x = y := by
    rw [← hdiv x i hi, hsum, hdiv y j hj]
  refine ⟨hxy, ?_⟩
  rw [hxy] at hsum
  exact Nat.add_left_cancel hsum

theorem strpOf_inj {c' k' : Nat} (hk : k < g.chunkLen) (hk' : k' < g.chunkLen)
    (h : strpOf g c k = strpOf g c' k') : c = c' ∧ k / g.stripesize = k' / g.stripesize := by
  have hj : k / g.stripesize < g.perChunk := (Nat.div_lt_iff_lt_mul g.stripesize_pos).2 hk
  have hj' : k' / g.stripesize < g.perChunk := (Nat.div_lt_iff_lt_mul g.stripesize_pos).2 hk'
  unfold strpOf at h
  generalize k / g.stripesize = j at *
  generalize k' / g.stripesize = j' at *
  obtain hlt | heq | hgt := Nat.lt_trichotomy c c'
  · obtain ⟨d, rfl⟩ := Nat.exists_eq_add_of_lt hlt
    rw [Nat.add_assoc, g.firstStrp_add, Nat.succ_mul] at h
    omega
  · refine ⟨heq, ?_⟩
    rw [heq] at h
    exact Nat.add_left_cancel h
  · obtain ⟨d, rfl⟩ := Nat.exists_eq_add_of_lt hgt
    rw [Nat.add_assoc, g.firstStrp_add, Nat.succ_mul] at h
    omega

/-- Different bytes of chunks go to different places. -/
theorem place_injective {c' k' : Nat} (hc : g.Fits c 1) (hc' : g.Fits c' 1) (hk : k < g.chunkLen)
    (hk' : k' < g.chunkLen)
    (h : place (syncIoRequests g c 1) k = place (syncIoRequests g c' 1) k') : c = c' ∧ k = k' := by
  rw [place_chunk hc hk, place_chunk hc' hk'] at h
  obtain ⟨hm, ho⟩ := Prod.mk.inj (Option.some.inj h)
  have hpos := g.stripesize_pos
  obtain ⟨hq, hmod⟩ := offT_inj hpos (strpOf_fits hc hk) (strpOf_fits hc' hk') (Nat.mod_lt k hpos)
    (Nat.mod_lt k' hpos) ho
  have hstrp : strpOf g c k = strpOf g c' k' := by
    rw [← Nat.div_add_mod (strpOf g c k) g.nbMembers, hq, hm, Nat.div_add_mod]
  obtain ⟨hcc, hdiv⟩ := strpOf_inj hk hk' hstrp
  refine ⟨hcc, ?_⟩
  rw [← Nat.div_add_mod k g.stripesize, hdiv, hmod, Nat.div_add_mod]

/-- No byte of a chunk but chunk 0 goes to the first stripe of a member. -/
theorem place_behind_first (h1 : 1 ≤ c) (hc : g.Fits c 1) (hk : k < g.chunkLen) :
    ∃ m o, place (syncIoRequests g c 1) k = some (m, o) ∧ m < g.nbMembers ∧
      ¬(0 ≤ o ∧ o < g.stripesize) := by
  refine ⟨_, _, place_chunk hc hk, Nat.mod_lt _ g.nbMembers_pos, fun ho => ?_⟩
  have hfits := strpOf_fits hc hk
  have hmod := Nat.mod_lt k g.stripesize_pos
  have hround : 1 ≤ strpOf g c k / g.nbMembers := by
    rw [Nat.one_le_div_iff g.nbMembers_pos]
    exact le_trans (g.firstStrp_ge h1) (Nat.le_add_right _ _)
  have hge : 1 * g.stripesize ≤ strpOf g c k / g.nbMembers * g.stripesize :=
    Nat.mul_le_mul_right _ hround
  rw [Nat.succ_mul] at hfits
  unfold offT u64Size at *
  split at ho <;> omega

end Fits

/-! ## Long requests -/

theorem forStripes_shift (g : Striping) (d k strp ptr : Nat) :
    forStripes g.stripesize (syncIoStripe g) k strp (ptr + d) =
      (forStripes g.stripesize (syncIoStripe g) k strp ptr).map (IoRequest.shift d) := by
  induction k generalizing strp ptr with
  | zero => rfl
  | succ k ih =>
      rw [forStripes, forStripes, List.map_cons, ← ih, Nat.add_right_comm ptr d]
      rfl

/-- A request for `len` chunks is one request for each, in order. -/
theorem syncIoRequests_flatMap {g : Striping} {c len : Nat} (h : g.Fits c len) :
    syncIoRequests g c len = (List.range len).flatMap fun i =>
      (syncIoRequests g (c + i) 1).map (IoRequest.shift (i * g.chunkLen)) := by
  induction len with
  | zero =>
      unfold syncIoRequests
      rw [h.strpRange, Nat.zero_mul, Nat.add_zero]
      show forStripes g.stripesize (syncIoStripe g) (g.firstStrp c - g.firstStrp c) _ 0 = []
      rw [Nat.sub_self]
      rfl
  | succ len ih =>
      have hpart : g.Fits c len := Striping.Fits.mono g h (by omega)
      have hlast : g.Fits (c + len) 1 := Striping.Fits.mono g h (by omega)
      have hlen := ih hpart
      rw [List.range_succ, List.flatMap_append, ← hlen, List.flatMap_singleton]
      unfold syncIoRequests
      rw [h.strpRange, hpart.strpRange, hlast.strpRange, g.firstStrp_add c len]
      simp only [Nat.add_sub_cancel_left, Nat.one_mul]
      rw [Nat.succ_mul, forStripes_append, ← forStripes_shift]
      unfold Striping.chunkLen
      rw [Nat.mul_assoc]

/-! ## The mapping -/

/-- Both programs send a byte of a chunk to the same place, and below byte `2 ^ 64` of the members the
places are distinct, behind the first stripes, and independent of how many chunks a request has. The first
part is for all requests, with the addresses that both compute in 64 bits; the others are for those whose
stripes end at or below that byte (`Fits`). -/
theorem stripe_mapping (g : Striping) {ssize : Nat → Nat}
    (hs : ∀ m < g.nbMembers, SsizeOk (ssize m)) :
    (∀ c len, (aioRequests g (fun m => sfactorOf g (ssize m)) c len).map (SectorRequest.bytes ssize) =
        syncIoRequests g c len) ∧
      (∀ c c' k k', g.Fits c 1 → g.Fits c' 1 → k < g.chunkLen → k' < g.chunkLen →
        place (syncIoRequests g c 1) k = place (syncIoRequests g c' 1) k' → c = c' ∧ k = k') ∧
      (∀ c k, 1 ≤ c → g.Fits c 1 → k < g.chunkLen → ∃ m o,
        place (syncIoRequests g c 1) k = some (m, o) ∧ m < g.nbMembers ∧
          ¬(0 ≤ o ∧ o < g.stripesize)) ∧
      (∀ c len, g.Fits c len → syncIoRequests g c len = (List.range len).flatMap fun i =>
        (syncIoRequests g (c + i) 1).map (IoRequest.shift (i * g.chunkLen))) := by
  refine ⟨aioRequests_bytes g hs, ?_, ?_, ?_⟩
  · intro c c' k k' hc hc' hk hk' h
    exact place_injective hc hc' hk hk' h
  · intro c k h1 hc hk
    exact place_behind_first h1 hc hk
  · intro c len h
    exact syncIoRequests_flatMap h

/-- Two members with stripes of 4096 bytes, combined. -/
def twoMembers : Striping := (VolGeom.pair .combined).striping

/-- On two devices with sectors of 512 and 4096 bytes, chunk 3 goes to the fourth stripe of each. -/
theorem stripe_mapping_two :
    (aioRequests twoMembers (fun m => sfactorOf twoMembers (if m = 0 then 512 else 4096)) 3 1).map
        (SectorRequest.bytes fun m => if m = 0 then 512 else 4096) =
      [⟨0, 12288, 4096, 0⟩, ⟨1, 12288, 4096, 4096⟩] := by
  have h := (@stripe_mapping twoMembers (fun m => if m = 0 then 512 else 4096) (by
    intro m hm
    show SsizeOk (if m = 0 then 512 else 4096)
    split
    · exact ⟨9, by decide, by decide, rfl⟩
    · exact ⟨12, by decide, by decide, rfl⟩)).1 3 1
  rw [h]
  decide

/-- Behind byte `2 ^ 64` the addresses come back: chunk `2 ^ 52` of two combined members begins at offset
0, and so chunks 1 and `2 ^ 52 + 1` share their bytes. -/
theorem stripe_mapping_wraps :
    place (syncIoRequests twoMembers (2 ^ 52) 1) 0 = some (0, 0) ∧
      place (syncIoRequests twoMembers (2 ^ 52 + 1) 1) 0 = place (syncIoRequests twoMembers 1 1) 0 := by
  decide

end Minipython.Tools
