/-
# Minipython.Tools.Erase — what a format does to the chunks (shfs_mkfs.c, tools_common.c, sync_erase_chunk)

A full format erases the chunks from 2 up to the volume size, and a quick one those of the table. A format may
end anywhere; `format_area` says for every chunk behind the label what the members hold there then.

The transfers are numbered, and which of them fails is arbitrary; one moves all of its bytes or none. What a
format has written when it ends is `mkfsDone`, a first part of the writes of the format that completes. Each
of these writes covers a byte or does not, and the last one that covers it is what counts
(`writeAll_zeros`). The erases cover the chunks up to `eraseEnd`, and the parts of the label lie in chunks 0
and 1.

A byte behind the label is so either what it was, or zero where the erases reach it. The old contents are
arbitrary, and so is how a label is encoded.
-/
import Minipython.Tools.Interrupt

namespace Minipython.Tools

open Minipython.Lib
open Minipython.Shfs
open Minipython.Tools.Admin

/-- Behind the last chunk that a format erases. -/
def eraseEnd (a : MkfsArgs) (volSize : Nat) (fullerase : Bool) : Nat :=
  if fullerase then volSize else 2 + a.conf.htableLen

section Erase

variable {g : Striping} {start len c k : Nat}

/-- A transfer that erases a range of chunks reaches no byte of a chunk outside. -/
theorem erase_not_covers (hfit : g.Fits start len) (hc : g.Fits c 1) (hk : k < g.chunkLen)
    (hout : ¬(start ≤ c ∧ c < start + len)) {r : IoRequest} (hr : r ∈ syncEraseRequests g start len) :
    ¬ Covers r (strpOf g c k % g.nbMembers) (offsetOf g c k) := by
  unfold syncEraseRequests at hr
  rw [Striping.Fits.strpRange _ hfit] at hr
  rcases mem_forStripes.1 hr with ⟨i, hi, rfl⟩
  rw [Nat.add_sub_cancel_left] at hi
  -- the chunk of the stripe
  have hper := g.perChunk_pos
  have hq : i / g.perChunk < len := (Nat.div_lt_iff_lt_mul hper).2 hi
  have hstrp : g.firstStrp start + i = g.firstStrp (start + i / g.perChunk) + i % g.perChunk := by
    rw [g.firstStrp_add, Nat.add_assoc, Nat.mul_comm, Nat.div_add_mod]
  have hfit' : g.Fits (start + i / g.perChunk) 1 := Striping.Fits.mono g hfit (by omega)
  have hmod := Nat.mod_lt i hper
  have hcov := covers_iff hfit' hc hmod hk
  intro h
  have hwrap := (g.strp_lt (stripe_fits hfit' hmod)).1
  unfold Covers syncIoStripe at h
  simp only [hstrp] at h
  rw [wrap64_of_lt hwrap] at h
  have heq : c = start + i / g.perChunk := (hcov.1 h).1
  apply hout
  rw [heq]
  exact ⟨Nat.le_add_right _ _, Nat.add_lt_add_left hq _⟩

end Erase

/-! ## What a format erases -/

section Area

variable {a : MkfsArgs} {size : Nat → UInt64} {env : MkfsEnv} {config : HdrConfig → Bytes}
  {common : HdrCommon → Bytes} {d : Members} {n c k : Nat}

/-- The chunks that a format erases, as a range. -/
theorem areaErases_eq {fullerase : Bool} (hmeta : metadataSize a.geom a.hdrConfig ≤ n) (hn : n < u64Size) :
    areaErases a.geom a.hdrConfig n fullerase =
      (syncEraseRequests a.geom.striping 2 (eraseEnd a n fullerase - 2)).map fun r => ⟨r, .zeros⟩ := by
  rw [metadataSize_conf] at hmeta
  unfold areaErases eraseEnd
  cases fullerase with
  | true =>
      rw [if_pos rfl, if_pos rfl, wrap64_gap (by omega) hn]
  | false =>
      rw [if_neg (by decide), if_neg (by decide), Nat.add_sub_cancel_left]
      rfl

theorem eraseEnd_le {fullerase : Bool} (hmeta : metadataSize a.geom a.hdrConfig ≤ n) :
    2 ≤ eraseEnd a n fullerase ∧ eraseEnd a n fullerase ≤ n := by
  rw [metadataSize_conf] at hmeta
  unfold eraseEnd
  split <;> omega

/-- The transfers of a format that reach a byte of a chunk behind the label write zeros, and there are none
unless the chunk is to be erased. -/
theorem mkfsWrites_covers {e : Nat} (hn : n = volSize a.geom e)
    (hmeta : metadataSize a.geom a.hdrConfig ≤ n) (hdr : HdrCommon) {fullerase : Bool} (h2 : 2 ≤ c)
    (hc : a.geom.striping.Fits c 1) (hk : k < a.geom.striping.chunkLen) {w : MkfsWrite}
    (hw : w ∈ mkfsWrites a.geom hdr a.hdrConfig n fullerase)
    (hcov : Covers w.req (strpOf a.geom.striping c k % a.geom.striping.nbMembers)
      (offsetOf a.geom.striping c k)) :
    w.data = .zeros ∧ c < eraseEnd a n fullerase := by
  have hs : 4096 ≤ a.geom.striping.stripesize := (stripesize_bounds a.geom).1
  have hlt : n < u64Size := by
    rw [hn]
    exact volSize_lt _ _
  have hall : a.geom.striping.Fits n 1 := fits_volSize (Nat.le_of_eq hn)
  have hend := @eraseEnd_le a n fullerase hmeta
  have hhead : ∀ m, ¬ Covers (headRequest m) (strpOf a.geom.striping c k % a.geom.striping.nbMembers)
      (offsetOf a.geom.striping c k) := fun m => not_covers_head (by omega) hc hk hs m
  rw [mkfsWrites_eq, areaErases_eq hmeta hlt] at hw
  simp only [List.mem_append, headErases, headWrites, configWrites, List.mem_map] at hw
  rcases hw with ((⟨m, -, rfl⟩ | ⟨r, hr, rfl⟩) | ⟨r, hr, rfl⟩) | ⟨m, -, rfl⟩
  · exact absurd hcov (hhead m)
  · refine ⟨rfl, ?_⟩
    by_contra hout
    have hfit : a.geom.striping.Fits 2 (eraseEnd a n fullerase - 2) := Striping.Fits.mono _ hall (by omega)
    exact erase_not_covers hfit hc hk (by omega) hr hcov
  · have hone : a.geom.striping.Fits 1 1 := Striping.Fits.mono _ hall (by omega)
    exact absurd hcov (not_covers_chunk hone hc (by omega) hk hr)
  · exact absurd hcov (hhead m)

/-- A byte that only zeros are written to keeps its value, or is zero. -/
theorem writeAll_zeros {ws : List MkfsWrite} {m : Nat} {o : Int}
    (hws : ∀ w ∈ ws, Covers w.req m o → w.data = .zeros) :
    writeAll config common ws d m o = d m o ∨
      (∃ w ∈ ws, Covers w.req m o) ∧ writeAll config common ws d m o = 0 := by
  by_cases h : ∃ w ∈ ws, Covers w.req m o
  · exact .inr ⟨h, writeAll_zero hws h⟩
  · exact .inl (writeAll_other fun w hw hcov => h ⟨w, hw, hcov⟩)

/-- What a format leaves behind the label, wherever it ends: every byte is what it was, or zero if it is in a
chunk that is to be erased. -/
theorem mkfsDone_area (h2 : 2 ≤ c) (hc : a.geom.striping.Fits c 1) (hk : k < a.geom.striping.chunkLen)
    (hn : n = volSize a.geom (memberDsize (fun m => (size m).toNat) a.nbDevs)) :
    chunkAt a.geom.striping (writeAll config common (mkfsDone a size env) d) c k =
        chunkAt a.geom.striping d c k ∨
      c < eraseEnd a n env.fullerase ∧
        chunkAt a.geom.striping (writeAll config common (mkfsDone a size env) d) c k = 0 := by
  have hs : 4096 ≤ a.geom.striping.stripesize := (stripesize_bounds a.geom).1
  rcases mkfsDone_cases a size env with ⟨j, -, hdone⟩ | ⟨n', mid, j, hmeta, hn', hmid, hdone, hj⟩
  · left
    refine writeAll_other fun w hw => ?_
    rw [hdone] at hw
    rcases List.mem_map.1 hw with ⟨m, -, rfl⟩
    exact not_covers_head (by omega) hc hk hs m
  · obtain rfl : n = n' := hn.trans hn'.symm
    have hjle : j ≤ a.nbDevs := by
      rcases hj with hj | ⟨hj, -⟩
      · exact Nat.le_of_lt hj
      · exact Nat.le_of_eq hj
    have hsub : ∀ w ∈ mkfsDone a size env,
        w ∈ mkfsWrites a.geom (newHdrCommon a.geom env.uuid n) a.hdrConfig n env.fullerase := by
      intro w hw
      rw [hdone, ← headWrites_take _ hjle] at hw
      rw [mkfsWrites_eq]
      simp only [List.mem_append] at hw ⊢
      rcases hw with (hw | hw) | hw
      · exact .inl (.inl (.inl hw))
      · rcases hmid w hw with h | h
        · exact .inl (.inl (.inr h))
        · exact .inl (.inr h)
      · exact .inr (List.mem_of_mem_take hw)
    have hcov := fun w hw => mkfsWrites_covers (w := w) hn hmeta _ h2 hc hk (hsub w hw)
    rcases writeAll_zeros fun w hw h => (hcov w hw h).1 with h | ⟨⟨w, hw, h⟩, hzero⟩
    · exact .inl h
    · exact .inr ⟨(hcov w hw h).2, hzero⟩

/-- A format that completes has erased the chunks up to the volume size or those of the table, and no other
chunk behind the label has changed; one that does not complete has done so in part. The format may end
between any two of its writes or at one that fails; a write moves all of its bytes or none. The byte is any
of any chunk behind the label. -/
theorem format_area (a : MkfsArgs) (size : Nat → UInt64) (env : MkfsEnv) (config : HdrConfig → Bytes)
    (common : HdrCommon → Bytes) (d : Members) {c k : Nat} (h2 : 2 ≤ c) (hc : a.geom.striping.Fits c 1)
    (hk : k < a.geom.striping.chunkLen) :
    (∀ v, mkfs a size env = some v →
      chunkAt a.geom.striping (writeAll config common v.writes d) c k =
        if c < eraseEnd a v.hdrCommon.volSize.toNat env.fullerase then 0 else chunkAt a.geom.striping d c k) ∧
    (chunkAt a.geom.striping (writeAll config common (mkfsDone a size env) d) c k =
        chunkAt a.geom.striping d c k ∨
      c < eraseEnd a (volSize a.geom (memberDsize (fun m => (size m).toNat) a.nbDevs)) env.fullerase ∧
        chunkAt a.geom.striping (writeAll config common (mkfsDone a size env) d) c k = 0) := by
  refine ⟨fun v hv => ?_, mkfsDone_area h2 hc hk rfl⟩
  rcases mkfs_spec hv with ⟨hn, hmeta⟩
  rw [← hn] at hmeta
  have hcov : ∀ w ∈ mkfsWrites a.geom v.hdrCommon a.hdrConfig v.hdrCommon.volSize.toNat env.fullerase,
      Covers w.req (strpOf a.geom.striping c k % a.geom.striping.nbMembers) (offsetOf a.geom.striping c k) →
      w.data = .zeros ∧ c < eraseEnd a v.hdrCommon.volSize.toNat env.fullerase :=
    fun w hw => mkfsWrites_covers hn hmeta v.hdrCommon h2 hc hk hw
  have hall : a.geom.striping.Fits v.hdrCommon.volSize.toNat 1 := fits_volSize (Nat.le_of_eq hn)
  have hend := @eraseEnd_le a _ env.fullerase hmeta
  unfold chunkAt
  rw [mkfs_writes hv]
  split
  · rename_i hlt
    apply writeAll_zero fun w hw h => (hcov w hw h).1
    have hfit : a.geom.striping.Fits 2 (eraseEnd a v.hdrCommon.volSize.toNat env.fullerase - 2) :=
      Striping.Fits.mono _ hall (by omega)
    rcases erase_covers hfit h2 (by omega) hk with ⟨r, hr, hcr⟩
    refine ⟨⟨r, .zeros⟩, ?_, hcr⟩
    rw [mkfsWrites_eq, areaErases_eq hmeta v.hdrCommon.volSize.toNat_lt]
    simp only [List.mem_append, List.mem_map]
    exact .inl (.inl (.inr ⟨r, hr, rfl⟩))
  · rename_i hge
    exact writeAll_other fun w hw h => hge (hcov w hw h).2

end Area

/-- The members behind a format of a file of six stripes that was full of sevens. -/
def sevens (v : Mkfs) : Members := writeAll (fun _ => Bytes.zeros) (fun _ => Bytes.zeros) v.writes fun _ _ => 7

/-- A full format erases chunk 4, which is free, and leaves the last stripe of the file. -/
theorem format_area_six : ∃ v, mkfs tinyArgs (fun _ => 24576) { plainEnv with fullerase := true } = some v ∧
    chunkAt tinyArgs.geom.striping (sevens v) 4 0 = 0 ∧
    chunkAt tinyArgs.geom.striping (sevens v) 5 0 = 7 := by
  have hv : ∃ v, mkfs tinyArgs (fun _ => 24576) { plainEnv with fullerase := true } = some v ∧
      v.hdrCommon.volSize = 5 := ⟨_, rfl, by decide⟩
  rcases hv with ⟨v, hv, hsize⟩
  have hat := fun c h2 hc => (format_area tinyArgs (fun _ => 24576)
    { plainEnv with fullerase := true } (fun _ => Bytes.zeros) (fun _ => Bytes.zeros) (fun _ _ => 7)
    (c := c) (k := 0) h2 hc (by decide)).1 v hv
  have h4 := hat 4 (by decide) (by decide)
  have h5 := hat 5 (by decide) (by decide)
  rw [hsize] at h4 h5
  exact ⟨v, hv, h4, h5⟩

end Minipython.Tools
