/-
# Minipython.Tools.Format — a volume that was just formatted (shfs_mkfs.c)

`Volume.ofMkfs` is the volume that a completed format leaves, and `writeAll` the members behind its
writes. The table is erased by transfers of zeros; the writes of the two parts of the label come in front
of them and behind them, and go to other places (`formatted_ofMkfs`). How the label is encoded does not
matter for this. It is written last to its places (`labelled_ofMkfs`), and writes to the chunks behind it
leave it alone (`labelled_frame`).

A write of the format is a request with a payload: zeros, the configuration, or the common header. `Covers`
says which bytes a request reaches, and a byte of the members is what the last write that covers it has put
there. Which transfers of an unfinished format were made is in `Interrupt`.
-/
import Minipython.Tools.Sessions

namespace Minipython.Tools

open Minipython.Lib
open Minipython.Shfs
open Minipython.Tools.Admin

/-! ## The volume -/

/-- The table is as long as its entries take. -/
theorem metadataSize_conf (a : MkfsArgs) : metadataSize a.geom a.hdrConfig = 2 + a.conf.htableLen :=
  metadataSize_eq a

/-- The volume that a format leaves. -/
def Admin.Volume.ofMkfs {a : MkfsArgs} {size : Nat → UInt64} {env : MkfsEnv} {v : Mkfs}
    (h : mkfs a size env = some v) : Volume where
  args := a
  backup := false
  volsize := v.hdrCommon.volSize.toNat
  tables_le := by
    obtain ⟨hvol, hmeta⟩ := mkfs_spec h
    rw [metadataSize_conf] at hmeta
    rw [hvol, if_neg Bool.false_ne_true, Nat.one_mul]
    exact hmeta
  volsize_lt := v.hdrCommon.volSize.toNat_lt
  fits := by
    intro c hc
    rw [(mkfs_spec h).1] at hc
    exact fits_volSize (Nat.le_of_lt hc)

/-! ## A format that meets no error -/

/-- Memory, the user and the devices let a format through; a seek to a negative offset is refused. -/
structure MkfsEnv.Ok (env : MkfsEnv) : Prop where
  chk0 : env.chk0 = true
  chk1 : env.chk1 = true
  strp0 : env.strp0 = true
  cancel : ∀ i, env.cancel i = false
  confirmed : env.confirmed = true
  io : ∀ i (r : IoRequest), 0 ≤ r.start → env.io i r = true

/-- A format completes if the metadata fits and no write goes to a negative offset. -/
theorem mkfs_ok {a : MkfsArgs} {size : Nat → UInt64} {env : MkfsEnv} (henv : env.Ok) {n : Nat}
    (hn : volSize a.geom (memberDsize (fun m => (size m).toNat) a.nbDevs) = n)
    (hmeta : metadataSize a.geom a.hdrConfig ≤ n)
    (hwrites : ∀ w ∈ mkfsWrites a.geom (newHdrCommon a.geom env.uuid n) a.hdrConfig n env.fullerase,
      0 ≤ w.req.start) : ∃ v, mkfs a size env = some v ∧ v.hdrCommon.volSize = UInt64.ofNat n := by
  have hall : env.allOk 0 (mkfsWrites a.geom (newHdrCommon a.geom env.uuid n) a.hdrConfig n
      env.fullerase) = true := MkfsEnv.allOk_of_forall fun i w hw => henv.io i w.req (hwrites w hw)
  have hvol : volSize a.geom (memberDsize (fun m => (size m).toNat) a.geom.nbMembers) = n := hn
  simp only [mkfs, hvol, henv.chk0, henv.chk1, henv.strp0, henv.cancel, henv.confirmed, hall]
  rw [if_neg (by decide), if_neg (Nat.not_lt.2 hmeta)]
  exact ⟨_, rfl, rfl⟩

/-! ## The members -/

/-- The bytes that are written; `config` and `common` encode the two parts of the label. -/
def Payload.bytes (config : HdrConfig → Bytes) (common : HdrCommon → Bytes) : Payload → Bytes
  | .zeros => Bytes.zeros
  | .config c => config c
  | .common h => common h

/-- The members behind the writes of a format. -/
def writeAll (config : HdrConfig → Bytes) (common : HdrCommon → Bytes) (ws : List MkfsWrite)
    (d : Members) : Members :=
  ws.foldl (fun d w => writeBytes (w.data.bytes config common) d w.req) d

/-- The transfer reaches the byte `o` of the member `m`. -/
def Covers (r : IoRequest) (m : Nat) (o : Int) : Prop := m = r.member ∧ r.start ≤ o ∧ o < r.start + r.len

section WriteAll

variable {config : HdrConfig → Bytes} {common : HdrCommon → Bytes} {d : Members} {m : Nat} {o : Int}

theorem write_keeps_zero {w : MkfsWrite} (hw : Covers w.req m o → w.data = .zeros) (h : d m o = 0) :
    writeBytes (w.data.bytes config common) d w.req m o = 0 := by
  unfold writeBytes
  split
  · rename_i hc
    rw [hw hc]
    rfl
  · exact h

/-- A byte that only zeros are written to stays zero. -/
theorem writeAll_keeps {ws : List MkfsWrite} (hws : ∀ w ∈ ws, Covers w.req m o → w.data = .zeros)
    (h : d m o = 0) : writeAll config common ws d m o = 0 := by
  induction ws generalizing d with
  | nil => exact h
  | cons w ws ih =>
      apply ih
      · exact fun x hx => hws x (List.mem_cons_of_mem w hx)
      · exact write_keeps_zero (hws w List.mem_cons_self) h

/-- A byte that only zeros are written to, and some, is zero in the end. -/
theorem writeAll_zero {ws : List MkfsWrite} (hws : ∀ w ∈ ws, Covers w.req m o → w.data = .zeros)
    (hcov : ∃ w ∈ ws, Covers w.req m o) : writeAll config common ws d m o = 0 := by
  obtain ⟨w, hw, hc⟩ := hcov
  obtain ⟨front, back, rfl⟩ := List.append_of_mem hw
  unfold writeAll
  rw [List.foldl_append]
  show writeAll config common back (writeBytes _ _ w.req) m o = 0
  apply writeAll_keeps
  · exact fun x hx => hws x (List.mem_append_right _ (List.mem_cons_of_mem w hx))
  · have hwrite : writeBytes (w.data.bytes config common) (front.foldl (fun d w =>
        writeBytes (w.data.bytes config common) d w.req) d) w.req m o =
          w.data.bytes config common (w.req.buf + (o - w.req.start).toNat) := if_pos hc
    rw [hwrite, hws w hw hc]
    rfl

end WriteAll

/-! ## Where the writes go -/

section Places

variable {g : Striping} {c k : Nat}

/-- The transfers that erase chunks reach every byte of them. -/
theorem erase_covers {start len : Nat} (h : g.Fits start len) (hs : start ≤ c) (hc : c < start + len)
    (hk : k < g.chunkLen) :
    ∃ r ∈ syncEraseRequests g start len, Covers r (strpOf g c k % g.nbMembers) (offsetOf g c k) := by
  have hfit : g.Fits c 1 := Striping.Fits.mono g h (by omega)
  have hi : k / g.stripesize < g.perChunk := (Nat.div_lt_iff_lt_mul g.stripesize_pos).2 hk
  -- the stripe of the byte, counted from the first one that is erased
  have hstrp : strpOf g c k = g.firstStrp start + ((c - start) * g.perChunk + k / g.stripesize) := by
    have hadd := g.firstStrp_add start (c - start)
    rw [Nat.add_sub_cancel' hs] at hadd
    unfold strpOf
    rw [hadd, Nat.add_assoc]
  have hlt : (c - start) * g.perChunk + k / g.stripesize < len * g.perChunk := by
    have hmul := Nat.mul_le_mul_right g.perChunk (by omega : c - start + 1 ≤ len)
    rw [Nat.succ_mul] at hmul
    omega
  have hwrap := (g.strp_lt (strpOf_fits hfit hk)).1
  refine ⟨syncIoStripe g (strpOf g c k) 0, ?_, ?_⟩
  · unfold syncEraseRequests
    rw [Striping.Fits.strpRange g h]
    simp only [Nat.add_sub_cancel_left, forStripes_range]
    exact List.mem_map.2 ⟨_, List.mem_range.2 hlt, by rw [hstrp]⟩
  · have hmod := Nat.mod_lt k g.stripesize_pos
    unfold Covers offsetOf syncIoStripe
    simp only
    rw [wrap64_of_lt hwrap]
    exact ⟨trivial, by omega, by omega⟩

/-- No byte of a chunk but chunk 0 lies in the first stripe of a member. -/
theorem not_covers_head (h1 : 1 ≤ c) (hc : g.Fits c 1) (hk : k < g.chunkLen) (hs : 4096 ≤ g.stripesize)
    (m : Nat) : ¬ Covers (headRequest m) (strpOf g c k % g.nbMembers) (offsetOf g c k) := by
  rintro ⟨-, hlo, hhi⟩
  obtain ⟨m', o, hplace, -, hout⟩ := place_behind_first h1 hc hk
  rw [place_chunk hc hk] at hplace
  obtain ⟨-, rfl⟩ := Prod.mk.inj (Option.some.inj hplace)
  change (0 : Int) ≤ offsetOf g c k at hlo
  change offsetOf g c k < 0 + ((4096 : Nat) : Int) at hhi
  apply hout
  refine ⟨hlo, ?_⟩
  change offsetOf g c k < (g.stripesize : Int)
  omega

/-- A transfer of one chunk reaches no byte of another. -/
theorem not_covers_chunk {c' : Nat} (hc : g.Fits c 1) (hc' : g.Fits c' 1) (hne : c' ≠ c)
    (hk : k < g.chunkLen) {r : IoRequest} (hr : r ∈ syncIoRequests g c 1) :
    ¬ Covers r (strpOf g c' k % g.nbMembers) (offsetOf g c' k) := by
  rw [syncIoRequests_eq hc] at hr
  obtain ⟨i, hi, rfl⟩ := List.mem_map.1 hr
  intro hcov
  exact hne ((covers_iff hc hc' (List.mem_range.1 hi) hk).1 hcov).1

end Places

/-! ## The table -/

/-- What a completed format has written. -/
theorem mkfs_writes {a : MkfsArgs} {size : Nat → UInt64} {env : MkfsEnv} {v : Mkfs}
    (h : mkfs a size env = some v) :
    v.writes = mkfsWrites a.geom v.hdrCommon a.hdrConfig v.hdrCommon.volSize.toNat env.fullerase := by
  have hvol := (mkfs_spec h).1
  rw [hvol]
  simp only [mkfs] at h
  split at h
  · cases h
  split at h
  · cases h
  split at h
  · cases h
  split at h
  · cases h
  split at h
  · cases h
  split at h
  · obtain rfl := Option.some.inj h
    rfl
  · cases h

/-- The table of a new volume is filled with zeros, whatever the members held before. -/
theorem formatted_ofMkfs {a : MkfsArgs} {size : Nat → UInt64} {env : MkfsEnv} {v : Mkfs}
    (h : mkfs a size env = some v) (config : HdrConfig → Bytes) (common : HdrCommon → Bytes)
    (d : Members) : Formatted (Volume.ofMkfs h) (writeAll config common v.writes d) := by
  set V := Volume.ofMkfs h with hV
  intro i hi k hk
  have hchunk : V.conf.htableChunk i = 2 + i := V.htableChunk_eq hi
  have hend : 2 + V.htableLen ≤ v.hdrCommon.volSize.toNat := by
    have hle := V.tablesEnd_le
    have hte : V.tablesEnd = 2 + 1 * V.htableLen := rfl
    have hvs : V.volsize = v.hdrCommon.volSize.toNat := rfl
    omega
  have hk' : k < V.g.chunkLen := by rw [V.chunkLen_eq]; exact hk
  have hfit : V.g.Fits (2 + i) 1 := by
    rw [← hchunk]
    exact V.fits_table hi
  have hall : V.g.Fits 2 (v.hdrCommon.volSize.toNat - 2) := by
    have hlast := V.fits (v.hdrCommon.volSize.toNat - 1) (by
      show _ < v.hdrCommon.volSize.toNat
      omega)
    exact Striping.Fits.mono V.g hlast (by omega)
  rw [hchunk]
  unfold chunkAt
  rw [mkfs_writes h]
  unfold mkfsWrites
  apply writeAll_zero
  · -- the label goes to the heads of the members and to chunk 1
    intro w hw hcov
    have hhead : ∀ m, ¬ Covers (headRequest m) (strpOf V.g (2 + i) k % V.g.nbMembers)
        (offsetOf V.g (2 + i) k) := fun m =>
      not_covers_head (by omega) hfit hk' (stripesize_bounds a.geom).1 m
    simp only [List.mem_append, List.mem_map] at hw
    obtain ((⟨m, -, rfl⟩ | ⟨r, -, rfl⟩) | ⟨r, hr, rfl⟩) | ⟨m, -, rfl⟩ := hw
    · rfl
    · rfl
    · have hone : V.g.Fits 1 1 := Striping.Fits.mono V.g hfit (by omega)
      exact absurd hcov (not_covers_chunk hone hfit (by omega) hk' hr)
    · exact absurd hcov (hhead m)
  · -- the erased chunks hold the table
    have herased : ∃ r ∈ (if env.fullerase
        then syncEraseRequests a.geom.striping 2 (wrap64 (v.hdrCommon.volSize.toNat + u64Size - 2))
        else syncEraseRequests a.geom.striping a.hdrConfig.htableRef.toNat
          (shfsHtableSizeChunks a.hdrConfig a.geom.chunksize)),
        Covers r (strpOf V.g (2 + i) k % V.g.nbMembers) (offsetOf V.g (2 + i) k) := by
      split
      · rw [wrap64_gap (by omega) v.hdrCommon.volSize.toNat_lt]
        exact erase_covers hall (by omega) (by omega) hk'
      · exact erase_covers (Striping.Fits.mono V.g hall (by
          show 2 + V.htableLen ≤ _
          omega)) (by
          show 2 ≤ _
          omega) (by
          show 2 + i < 2 + V.htableLen
          omega) hk'
    obtain ⟨r, hr, hcov⟩ := herased
    refine ⟨⟨r, .zeros⟩, ?_, hcov⟩
    apply List.mem_append_left
    apply List.mem_append_left
    apply List.mem_append_right
    exact List.mem_map.2 ⟨r, hr, rfl⟩

/-! ## The label -/

/-- The members hold the label `hdr` at their heads, and chunk 1 the configuration. -/
structure Labelled (V : Volume) (config : HdrConfig → Bytes) (common : HdrCommon → Bytes) (hdr : HdrCommon)
    (d : Members) : Prop where
  head : ∀ m < V.g.nbMembers, ∀ o < 4096, d m (o : Nat) = common { hdr with memberUuid := hdr.member m } o
  config : ∀ k < V.chunksize, chunkAt V.g d 1 k = config V.hdr k

section Label

variable {config : HdrConfig → Bytes} {common : HdrCommon → Bytes} {d d₁ : Members} {m c : Nat} {o : Int}

/-- Where nothing is written, nothing changes. -/
theorem writeAll_other {ws : List MkfsWrite} (hws : ∀ w ∈ ws, ¬ Covers w.req m o) :
    writeAll config common ws d m o = d m o := by
  induction ws generalizing d with
  | nil => rfl
  | cons w ws ih =>
      have hhead : writeBytes (w.data.bytes config common) d w.req m o = d m o :=
        if_neg (hws w List.mem_cons_self)
      exact (ih fun x hx => hws x (List.mem_cons_of_mem w hx)).trans hhead

/-- The heads are written member by member. -/
theorem writeAll_heads {hdr : HdrCommon} {n : Nat} (hm : m < n) {k : Nat} (hk : k < 4096) :
    writeAll config common ((List.range n).map fun m =>
      ⟨headRequest m, .common { hdr with memberUuid := hdr.member m }⟩) d m (k : Nat) =
        common { hdr with memberUuid := hdr.member m } k := by
  induction n with
  | zero => cases hm
  | succ n ih =>
      unfold writeAll
      rw [List.range_succ, List.map_append, List.foldl_append]
      by_cases hmn : m = n
      · subst hmn
        have hcov : Covers (headRequest m) m (k : Nat) := ⟨rfl, Int.natCast_nonneg k, by
          show (k : Int) < 0 + ((4096 : Nat) : Int)
          omega⟩
        have hwrite : ∀ d', writeBytes (common { hdr with memberUuid := hdr.member m }) d' (headRequest m) m
            (k : Nat) = common { hdr with memberUuid := hdr.member m } (0 + ((k : Int) - 0).toNat) :=
          fun d' => if_pos hcov
        rw [Int.sub_zero, Int.toNat_natCast, Nat.zero_add] at hwrite
        exact hwrite _
      · have hother : ∀ d', writeBytes (common { hdr with memberUuid := hdr.member n }) d' (headRequest n) m
            (k : Nat) = d' m (k : Nat) := fun d' => if_neg fun hcov => hmn hcov.1
        exact (hother _).trans (ih (by omega))

/-- A completed format has written the label. -/
theorem labelled_ofMkfs {a : MkfsArgs} {size : Nat → UInt64} {env : MkfsEnv} {v : Mkfs}
    (h : mkfs a size env = some v) (config : HdrConfig → Bytes) (common : HdrCommon → Bytes)
    (d : Members) :
    Labelled (Volume.ofMkfs h) config common v.hdrCommon (writeAll config common v.writes d) := by
  set V := Volume.ofMkfs h with hV
  have hsplit : ∀ ws ws' d', writeAll config common (ws ++ ws') d' =
      writeAll config common ws' (writeAll config common ws d') := fun ws ws' d' => List.foldl_append
  have hone : V.g.Fits 1 1 := by
    have hle := V.tablesEnd_le
    have hte : V.tablesEnd = 2 + 1 * V.htableLen := rfl
    exact V.fits 1 (by omega)
  constructor
  case head =>
      intro m hm o ho
      rw [mkfs_writes h]
      unfold mkfsWrites
      rw [hsplit]
      exact writeAll_heads hm ho
  case config =>
      intro k hk
      have hk' : k < V.g.chunkLen := by
        rw [V.chunkLen_eq]
        exact hk
      rw [mkfs_writes h]
      unfold mkfsWrites chunkAt
      rw [hsplit, hsplit]
      -- the heads that are written last do not reach chunk 1
      rw [writeAll_other fun w hw => by
        obtain ⟨m, -, rfl⟩ := List.mem_map.1 hw
        exact not_covers_head (Nat.le_refl 1) hone hk' (stripesize_bounds a.geom).1 m]
      have hchunk : ∀ d', writeAll config common
          ((syncIoRequests a.geom.striping 1 1).map fun r => ⟨r, .config a.hdrConfig⟩) d' =
          ((List.range V.g.perChunk).map (stripeRequest V.g 1)).foldl
            (writeBytes (config a.hdrConfig)) d' := by
        intro d'
        rw [← syncIoRequests_eq hone]
        unfold writeAll
        rw [List.foldl_map]
        rfl
      rw [hchunk]
      have hlast : k / V.g.stripesize < V.g.perChunk := (Nat.div_lt_iff_lt_mul V.g.stripesize_pos).2 hk'
      exact (chunkAt_writes hone hone hk' (Nat.le_refl _)).trans (if_pos ⟨rfl, hlast⟩)

/-- No transfer of a chunk but those of chunk 0 reaches the head of a member. -/
theorem request_not_head {g : Striping} (h1 : 1 ≤ c) (hc : g.Fits c 1) (hs : 4096 ≤ g.stripesize)
    {r : IoRequest} (hr : r ∈ syncIoRequests g c 1) (ho : 0 ≤ o) (ho' : o < 4096) : ¬ Covers r m o := by
  rw [syncIoRequests_eq hc] at hr
  obtain ⟨i, hi, rfl⟩ := List.mem_map.1 hr
  have hi := List.mem_range.1 hi
  rintro ⟨rfl, hlo, hhi⟩
  -- the byte of the chunk that lies there
  obtain ⟨j, hj⟩ := Int.eq_ofNat_of_zero_le (Int.sub_nonneg.2 hlo)
  have hjs : j < g.stripesize := by
    have hlen : (stripeRequest g c i).len = g.stripesize := rfl
    omega
  have hdiv : (i * g.stripesize + j) / g.stripesize = i := by
    rw [Nat.add_comm, Nat.add_mul_div_right _ _ g.stripesize_pos, Nat.div_eq_of_lt hjs, Nat.zero_add]
  have hmod : (i * g.stripesize + j) % g.stripesize = j := by
    rw [Nat.add_comm, Nat.add_mul_mod_self_right, Nat.mod_eq_of_lt hjs]
  have hk : i * g.stripesize + j < g.chunkLen := by
    have hmul := Nat.mul_le_mul_right g.stripesize hi
    rw [Nat.succ_mul] at hmul
    exact Nat.lt_of_lt_of_le (Nat.add_lt_add_left hjs _) hmul
  have hoff : offsetOf g c (i * g.stripesize + j) = o := by
    unfold offsetOf strpOf
    rw [hdiv, hmod]
    change (stripeRequest g c i).start + (j : Int) = o
    omega
  apply not_covers_head h1 hc hk hs (stripeRequest g c i).member
  rw [hoff]
  unfold strpOf
  rw [hdiv]
  exact ⟨rfl, ho, by
    show o < 0 + ((4096 : Nat) : Int)
    omega⟩

/-- A byte that no request covers is left alone, also by parts of them. -/
theorem writeBytes_other {buf : Bytes} {io : Transfers} {rs : List IoRequest}
    (hrs : ∀ r ∈ rs, ¬ Covers r m o) :
    rs.foldl (fun d r => writeBytes buf d (io.moved r)) d m o = d m o := by
  induction rs generalizing d with
  | nil => rfl
  | cons r rs ih =>
      have hhead : writeBytes buf d (io.moved r) m o = d m o := by
        apply if_neg
        rintro ⟨hm, hlo, hhi⟩
        have hlen : (io.moved r).len ≤ r.len := Nat.min_le_right _ _
        have hstart : (io.moved r).start = r.start := rfl
        exact hrs r List.mem_cons_self ⟨hm, hlo, by omega⟩
      exact (ih fun x hx => hrs x (List.mem_cons_of_mem r hx)).trans hhead

/-- Writes to the chunks behind it keep the label. -/
theorem labelled_frame (V : Volume) (config : HdrConfig → Bytes) (common : HdrCommon → Bytes)
    (hdr : HdrCommon) : Frame V.g (2 ≤ ·) fun d d₁ =>
      Labelled V config common hdr d → Labelled V config common hdr d₁ where
  refl := fun _ hd => hd
  trans := fun hab hbc hd => hbc (hab hd)
  write := by
    intro c d d₁ ok buf io h2 hfit hwrite hd
    constructor
    case head =>
        intro m hm o ho
        obtain ⟨n, -, hfold, -⟩ := writeStripes_spec buf io (syncIoRequests V.g c 1) d
        have hd₁ : (writeStripes buf io (syncIoRequests V.g c 1) d).2 = d₁ := congrArg Prod.snd hwrite
        rw [← hd₁, hfold, writeBytes_other fun r hr => request_not_head (by omega) hfit
          (stripesize_bounds V.args.geom).1 (List.mem_of_mem_take hr) (Int.natCast_nonneg o) (by omega)]
        exact hd.head m hm o ho
    case config =>
        intro k hk
        have hk' : k < V.g.chunkLen := by
          rw [V.chunkLen_eq]
          exact hk
        have hone : V.g.Fits 1 1 := Striping.Fits.mono V.g hfit (by omega)
        exact (write_other hfit hone (by omega) hwrite k hk').trans (hd.config k hk)

end Label

end Minipython.Tools
