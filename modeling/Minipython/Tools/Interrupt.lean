/-
# Minipython.Tools.Interrupt — a format that does not complete (shfs_mkfs.c, shfs.c)

`mkfs` takes the labels off all members before it touches anything else, and puts the new ones on when all
else is written. `mkfsDone` is what it has written when the process ends, wherever that is: at a transfer
that fails, at a test of `cancel`, for lack of memory, or behind the last label. A transfer happens as a whole
or not at all. Which of them fails is up to the environment, transfer by transfer: a label may fail to be
written where the head could be erased, and then some members have their new label and the others have none.

`interrupted_format` says what this order is for. A unikernel that mounts a volume with one of these members
finds the volume that was there before, of which nothing has been overwritten on this member, or a format
that completed.
-/
import Minipython.Shfs.MountLabel
import Minipython.Tools.Format

namespace Minipython.Tools

open Minipython.Shfs
open Minipython.Tools.Admin

/-! ## The parts of a format -/

/-- The common header area of all members is erased. -/
def headErases (n : Nat) : List MkfsWrite := (List.range n).map fun m => ⟨headRequest m, .zeros⟩

/-- The full format or the quick one. -/
def areaErases (g : VolGeom) (c : HdrConfig) (volSize : Nat) (fullerase : Bool) : List MkfsWrite :=
  (if fullerase then syncEraseRequests g.striping 2 (wrap64 (volSize + u64Size - 2))
    else syncEraseRequests g.striping c.htableRef.toNat (shfsHtableSizeChunks c g.chunksize)).map
    fun r => ⟨r, .zeros⟩

/-- The config header is written. -/
def configWrites (g : VolGeom) (c : HdrConfig) : List MkfsWrite :=
  (syncIoRequests g.striping 1 1).map fun r => ⟨r, .config c⟩

/-- The common header is written to all members, with the uuid of each. -/
def headWrites (hdr : HdrCommon) (n : Nat) : List MkfsWrite :=
  (List.range n).map fun m => ⟨headRequest m, .common { hdr with memberUuid := hdr.member m }⟩

/-- The transfers in front of the first that fails, from the number `i` on. -/
def MkfsEnv.untilFailure (env : MkfsEnv) : Nat → List MkfsWrite → List MkfsWrite
  | _, [] => []
  | i, w :: ws => if env.io i w.req then w :: env.untilFailure (i + 1) ws else []

/-- One part of a format, from the transfer `i` on, and the rest of it: behind a transfer that fails the
process dies. -/
def performed (env : MkfsEnv) (i : Nat) (ws rest : List MkfsWrite) : List MkfsWrite :=
  if env.allOk i ws then ws ++ rest else env.untilFailure i ws

/-- What `mkfs` has written when the process ends. -/
def mkfsDone (a : MkfsArgs) (size : Nat → UInt64) (env : MkfsEnv) : List MkfsWrite :=
  let g := a.geom
  let volSize := volSize g (memberDsize (fun m => (size m).toNat) g.nbMembers)
  let hdr := newHdrCommon g env.uuid volSize
  let c := a.hdrConfig
  let heads := headErases g.nbMembers
  let area := areaErases g c volSize env.fullerase
  let config := configWrites g c
  if !env.chk0 || !env.chk1 then []
  else if metadataSize g c > volSize then []
  else if env.cancel 0 || !env.confirmed || env.cancel 1 then []
  else
    performed env 0 heads <|
      if !env.strp0 then []
      else
        performed env heads.length area <|
          if env.cancel 2 then []
          else
            performed env (heads ++ area).length config <|
              if env.cancel 3 then []
              else performed env (heads ++ area ++ config).length (headWrites hdr g.nbMembers) []

section Done

variable {a : MkfsArgs} {size : Nat → UInt64} {env : MkfsEnv}

/-- Some transfer fails, so not all are made. -/
theorem MkfsEnv.untilFailure_take {ws : List MkfsWrite} {i : Nat} (h : ¬env.allOk i ws = true) :
    ∃ k < ws.length, env.untilFailure i ws = ws.take k := by
  induction ws generalizing i with
  | nil => exact absurd rfl h
  | cons w ws ih =>
      rw [MkfsEnv.untilFailure]
      by_cases hw : env.io i w.req = true
      · rw [MkfsEnv.allOk, hw, Bool.true_and] at h
        rcases ih h with ⟨k, hk, htake⟩
        rw [if_pos hw, htake]
        exact ⟨k + 1, Nat.succ_lt_succ hk, rfl⟩
      · rw [if_neg hw]
        exact ⟨0, Nat.succ_pos _, rfl⟩

/-- A part of a format is written as a whole, or the process ends within it. -/
theorem performed_cases (env : MkfsEnv) (i : Nat) (ws rest : List MkfsWrite) :
    (env.allOk i ws = true ∧ performed env i ws rest = ws ++ rest) ∨
      ∃ k < ws.length, performed env i ws rest = ws.take k := by
  unfold performed
  by_cases hall : env.allOk i ws = true
  · left
    exact ⟨hall, if_pos hall⟩
  · right
    rw [if_neg hall]
    exact MkfsEnv.untilFailure_take hall

/-- The parts in order make up the writes of a format. -/
theorem mkfsWrites_eq (g : VolGeom) (hdr : HdrCommon) (c : HdrConfig) (volSize : Nat) (fullerase : Bool) :
    mkfsWrites g hdr c volSize fullerase = headErases g.nbMembers ++ areaErases g c volSize fullerase ++
      configWrites g c ++ headWrites hdr g.nbMembers := rfl

theorem headErases_take {n k : Nat} (h : k ≤ n) : (headErases n).take k = headErases k := by
  unfold headErases
  rw [← List.map_take, List.take_range, Nat.min_eq_left h]

theorem headWrites_take (hdr : HdrCommon) {n k : Nat} (h : k ≤ n) :
    (headWrites hdr n).take k = headWrites hdr k := by
  unfold headWrites
  rw [← List.map_take, List.take_range, Nat.min_eq_left h]

/-- A format that nobody stops and whose transfers all succeed completes. -/
theorem mkfs_completes {a : MkfsArgs} {size : Nat → UInt64} {env : MkfsEnv} {n : Nat} {hdr : HdrCommon}
    (hn : n = volSize a.geom (memberDsize (fun m => (size m).toNat) a.nbDevs))
    (hhdr : hdr = newHdrCommon a.geom env.uuid n) (hmem : ¬(!env.chk0 || !env.chk1) = true)
    (hmeta : ¬metadataSize a.geom a.hdrConfig > n)
    (hgo : ¬(env.cancel 0 || !env.confirmed || env.cancel 1) = true) (hstrp : ¬(!env.strp0) = true)
    (hcancel : ¬(env.cancel 2 || env.cancel 3) = true)
    (hall : env.allOk 0 (mkfsWrites a.geom hdr a.hdrConfig n env.fullerase) = true) :
    mkfs a size env = some ⟨hdr, a.hdrConfig, mkfsWrites a.geom hdr a.hdrConfig n env.fullerase⟩ := by
  subst hhdr hn
  have hdevs : a.geom.nbMembers = a.nbDevs := rfl
  unfold mkfs
  simp only [hdevs]
  rw [if_neg hmem, if_neg hmeta, if_neg hgo, if_neg hstrp, if_neg hcancel, if_pos hall]

/-- How far a format can get: within the heads that it erases, or behind them some of the transfers in
between and then the first `j` of the labels, all of which it has written only if it completes. -/
theorem mkfsDone_cases (a : MkfsArgs) (size : Nat → UInt64) (env : MkfsEnv) :
    (∃ k ≤ a.nbDevs, mkfsDone a size env = headErases k) ∨
      ∃ n mid j, metadataSize a.geom a.hdrConfig ≤ n ∧
        n = volSize a.geom (memberDsize (fun m => (size m).toNat) a.nbDevs) ∧
        (∀ w ∈ mid, w ∈ areaErases a.geom a.hdrConfig n env.fullerase ∨
          w ∈ configWrites a.geom a.hdrConfig) ∧
        mkfsDone a size env = headErases a.nbDevs ++ mid ++ headWrites (newHdrCommon a.geom env.uuid n) j ∧
        (j < a.nbDevs ∨ j = a.nbDevs ∧ ∃ v, mkfs a size env = some v ∧ v.writes = mkfsDone a size env) := by
  set n := volSize a.geom (memberDsize (fun m => (size m).toNat) a.nbDevs) with hn
  set hdr := newHdrCommon a.geom env.uuid n with hhdr
  set area := areaErases a.geom a.hdrConfig n env.fullerase with harea
  have hdone : mkfsDone a size env =
      if !env.chk0 || !env.chk1 then []
      else if metadataSize a.geom a.hdrConfig > n then []
      else if env.cancel 0 || !env.confirmed || env.cancel 1 then []
      else performed env 0 (headErases a.nbDevs) <|
        if !env.strp0 then []
        else performed env (headErases a.nbDevs).length area <|
          if env.cancel 2 then []
          else performed env (headErases a.nbDevs ++ area).length (configWrites a.geom a.hdrConfig) <|
            if env.cancel 3 then []
            else performed env (headErases a.nbDevs ++ area ++ configWrites a.geom a.hdrConfig).length
              (headWrites hdr a.nbDevs) [] := rfl
  have hlen : (headErases a.nbDevs).length = a.nbDevs := by simp [headErases]
  have hlenw : (headWrites hdr a.nbDevs).length = a.nbDevs := by simp [headWrites]
  have hnone : ∃ k ≤ a.nbDevs, ([] : List MkfsWrite) = headErases k := ⟨0, Nat.zero_le _, rfl⟩
  rw [hdone]
  split
  · exact .inl hnone
  rename_i hmem
  split
  · exact .inl hnone
  rename_i hmeta
  split
  · exact .inl hnone
  rename_i hgo
  -- the heads
  rcases performed_cases env 0 (headErases a.nbDevs) _ with ⟨hheads, h⟩ | ⟨k, hk, h⟩
  swap
  · rw [hlen] at hk
    rw [h, headErases_take (Nat.le_of_lt hk)]
    exact .inl ⟨k, Nat.le_of_lt hk, rfl⟩
  rw [h]
  right
  refine ⟨n, ?_⟩
  -- behind them no label is written unless all else is
  have hpart : ∀ mid : List MkfsWrite, (∀ w ∈ mid, w ∈ area ∨ w ∈ configWrites a.geom a.hdrConfig) →
      ∃ mid' j, metadataSize a.geom a.hdrConfig ≤ n ∧ n = n ∧
        (∀ w ∈ mid', w ∈ area ∨ w ∈ configWrites a.geom a.hdrConfig) ∧
        headErases a.nbDevs ++ mid = headErases a.nbDevs ++ mid' ++ headWrites hdr j ∧
        (j < a.nbDevs ∨ j = a.nbDevs ∧ ∃ v, mkfs a size env = some v ∧
          v.writes = headErases a.nbDevs ++ mid) := by
    intro mid hmid
    refine ⟨mid, 0, Nat.le_of_not_lt hmeta, rfl, hmid, ?_, .inl a.nbDevs_pos⟩
    exact (List.append_nil _).symm
  split
  · exact hpart [] (by simp)
  rename_i hstrp
  rcases performed_cases env _ area _ with ⟨hareas, h⟩ | ⟨k, hk, h⟩
  swap
  · rw [h]
    exact hpart _ fun w hw => .inl (List.mem_of_mem_take hw)
  rw [h]
  split
  · rw [List.append_nil]
    exact hpart _ fun w hw => .inl hw
  rename_i hcancel2
  rcases performed_cases env _ (configWrites a.geom a.hdrConfig) _ with ⟨hconfig, h⟩ | ⟨k, hk, h⟩
  swap
  · rw [h]
    exact hpart _ fun w hw => (List.mem_append.1 hw).imp_right List.mem_of_mem_take
  rw [h]
  split
  · rw [List.append_nil]
    exact hpart _ fun w hw => List.mem_append.1 hw
  rename_i hcancel3
  -- the labels
  refine ⟨area ++ configWrites a.geom a.hdrConfig, ?_⟩
  rcases performed_cases env _ (headWrites hdr a.nbDevs) [] with ⟨hlabels, h⟩ | ⟨k, hk, h⟩
  · rw [h, List.append_nil]
    refine ⟨a.nbDevs, Nat.le_of_not_lt hmeta, rfl, fun w hw => List.mem_append.1 hw, ?_, .inr ⟨rfl, ?_⟩⟩
    · simp only [List.append_assoc, hhdr]
    · have hall : env.allOk 0 (mkfsWrites a.geom hdr a.hdrConfig n env.fullerase) = true := by
        rw [mkfsWrites_eq, MkfsEnv.allOk_append, MkfsEnv.allOk_append, MkfsEnv.allOk_append]
        simp only [Bool.and_eq_true, Nat.zero_add]
        exact ⟨⟨⟨hheads, hareas⟩, hconfig⟩, hlabels⟩
      have hcancel : ¬(env.cancel 2 || env.cancel 3) = true := by simp [hcancel2, hcancel3]
      refine ⟨_, mkfs_completes hn hhdr hmem hmeta hgo hstrp hcancel hall, ?_⟩
      show mkfsWrites a.geom hdr a.hdrConfig n env.fullerase = _
      rw [mkfsWrites_eq]
      simp only [List.append_assoc]
      rfl
  · rw [hlenw] at hk
    rw [h, headWrites_take hdr (Nat.le_of_lt hk)]
    refine ⟨k, Nat.le_of_not_lt hmeta, rfl, fun w hw => List.mem_append.1 hw, ?_, .inl hk⟩
    simp only [List.append_assoc, hhdr]

end Done

/-! ## What the members are labelled with -/

/-- The header that is written, if there is one in what is written. -/
def Payload.header : Payload → Option HdrCommon
  | .zeros => none
  | .config _ => none
  | .common h => some h

/-- A transfer reaches the common header area of its member. -/
def ReachesHead (r : IoRequest) : Prop := r.start < 4096 ∧ 0 < r.start + r.len

instance (r : IoRequest) : Decidable (ReachesHead r) := inferInstanceAs (Decidable (_ ∧ _))

/-- The headers of the members behind a transfer. What reaches a common header area without being one
leaves none there. -/
def writeHeader (hdrs : Nat → Option HdrCommon) (w : MkfsWrite) (m : Nat) : Option HdrCommon :=
  if m = w.req.member ∧ ReachesHead w.req then
    if w.req = headRequest m then w.data.header else none
  else hdrs m

/-- The headers behind a list of transfers. -/
def headersAfter (hdrs : Nat → Option HdrCommon) (ws : List MkfsWrite) : Nat → Option HdrCommon :=
  ws.foldl writeHeader hdrs

section Headers

variable {hdrs : Nat → Option HdrCommon} {m : Nat}

theorem headersAfter_append (hdrs : Nat → Option HdrCommon) (ws ws' : List MkfsWrite) :
    headersAfter hdrs (ws ++ ws') = headersAfter (headersAfter hdrs ws) ws' := List.foldl_append

/-- One header is written. -/
theorem writeHeader_head (hdrs : Nat → Option HdrCommon) (data : Payload) (k m : Nat) :
    writeHeader hdrs ⟨headRequest k, data⟩ m = if m = k then data.header else hdrs m := by
  have hreach : ReachesHead (headRequest k) := by
    constructor
    · show (0 : Int) < 4096
      decide
    · show (0 : Int) < 0 + (4096 : Nat)
      decide
  unfold writeHeader
  by_cases hmk : m = k
  · subst hmk
    rw [if_pos ⟨rfl, hreach⟩, if_pos rfl, if_pos rfl]
  · rw [if_neg fun h => hmk h.1, if_neg hmk]

theorem headersAfter_erases (hdrs : Nat → Option HdrCommon) (k m : Nat) :
    headersAfter hdrs (headErases k) m = if m < k then none else hdrs m := by
  unfold headErases headersAfter
  induction k with
  | zero => rfl
  | succ k ih =>
      rw [List.range_succ, List.map_append, List.foldl_append]
      refine (writeHeader_head _ _ k m).trans ?_
      rw [ih]
      by_cases hmk : m = k
      · rw [if_pos hmk, if_pos (by omega)]
        rfl
      · rw [if_neg hmk]
        by_cases hlt : m < k
        · rw [if_pos hlt, if_pos (by omega)]
        · rw [if_neg hlt, if_neg (by omega)]

theorem headersAfter_writes (hdrs : Nat → Option HdrCommon) (hdr : HdrCommon) (j m : Nat) :
    headersAfter hdrs (headWrites hdr j) m =
      if m < j then some { hdr with memberUuid := hdr.member m } else hdrs m := by
  unfold headWrites headersAfter
  induction j with
  | zero => rfl
  | succ j ih =>
      rw [List.range_succ, List.map_append, List.foldl_append]
      refine (writeHeader_head _ _ j m).trans ?_
      rw [ih]
      by_cases hmj : m = j
      · rw [if_pos hmj, if_pos (by omega), hmj]
        rfl
      · rw [if_neg hmj]
        by_cases hlt : m < j
        · rw [if_pos hlt, if_pos (by omega)]
        · rw [if_neg hlt, if_neg (by omega)]

/-- What does not reach the common header areas leaves the headers alone. -/
theorem headersAfter_behind {ws : List MkfsWrite} (hws : ∀ w ∈ ws, ¬ReachesHead w.req) :
    headersAfter hdrs ws = hdrs := by
  induction ws generalizing hdrs with
  | nil => rfl
  | cons w ws ih =>
      have hw : writeHeader hdrs w = hdrs := by
        funext m
        exact if_neg fun h => hws w List.mem_cons_self h.2
      show headersAfter (writeHeader hdrs w) ws = hdrs
      rw [hw]
      exact ih fun x hx => hws x (List.mem_cons_of_mem w hx)

end Headers

/-- A stripe behind the first round does not reach a common header area, also where its offset is negative. -/
theorem stripe_behind_head {g : Striping} (hs : 4096 ≤ g.stripesize) {strp ptr : Nat}
    (h1 : g.nbMembers ≤ strp) (hfit : (strp / g.nbMembers + 1) * g.stripesize ≤ u64Size) :
    ¬ReachesHead (syncIoStripe g strp ptr) := by
  rintro ⟨hlo, hhi⟩
  have hround : 1 ≤ strp / g.nbMembers := (Nat.one_le_div_iff g.nbMembers_pos).2 h1
  have hge : 1 * g.stripesize ≤ strp / g.nbMembers * g.stripesize := Nat.mul_le_mul_right _ hround
  change offT (wrap64 (strp / g.nbMembers * g.stripesize)) < 4096 at hlo
  change 0 < offT (wrap64 (strp / g.nbMembers * g.stripesize)) + (g.stripesize : Int) at hhi
  rw [wrap64_of_lt (g.strp_lt hfit).1] at hlo hhi
  rw [Nat.succ_mul] at hfit
  unfold offT at hlo hhi
  simp only [u64Size] at *
  split at hlo <;> omega

/-- The transfers of a range of chunks behind chunk 0 that does not wrap. -/
theorem range_behind_head {g : Striping} (hs : 4096 ≤ g.stripesize) {start len ptr i : Nat} (h1 : 1 ≤ start)
    (hfit : g.Fits start len) (hi : i < len * g.perChunk) :
    ¬ReachesHead (syncIoStripe g (g.firstStrp start + i) ptr) := by
  apply stripe_behind_head hs
  · exact le_trans (g.firstStrp_ge h1) (Nat.le_add_right _ _)
  · refine le_trans (Nat.mul_le_mul_right _ (Nat.succ_le_succ (Nat.div_le_div_right ?_))) hfit
    rw [g.firstStrp_add]
    omega

/-- Between the erased heads and the labels nothing reaches a head. -/
theorem areas_behind_head {a : MkfsArgs} {n d : Nat} (hn : n = volSize a.geom d)
    (hmeta : metadataSize a.geom a.hdrConfig ≤ n) {fullerase : Bool} {w : MkfsWrite}
    (hw : w ∈ areaErases a.geom a.hdrConfig n fullerase ∨ w ∈ configWrites a.geom a.hdrConfig) :
    ¬ReachesHead w.req := by
  have hs : 4096 ≤ a.geom.striping.stripesize := (stripesize_bounds a.geom).1
  have hall : a.geom.striping.Fits n 1 := fits_volSize (Nat.le_of_eq hn)
  rw [metadataSize_eq] at hmeta
  have herase : ∀ start len, 1 ≤ start → start + len ≤ n + 1 → ∀ r ∈ syncEraseRequests a.geom.striping start len,
      ¬ReachesHead r := by
    intro start len h1 hle r hr
    have hfit := Striping.Fits.mono _ hall hle
    unfold syncEraseRequests at hr
    rw [Striping.Fits.strpRange _ hfit] at hr
    rcases mem_forStripes.1 hr with ⟨i, hi, rfl⟩
    rw [Nat.add_sub_cancel_left] at hi
    exact range_behind_head hs h1 hfit hi
  rcases hw with hw | hw
  · unfold areaErases at hw
    rcases List.mem_map.1 hw with ⟨r, hr, rfl⟩
    cases fullerase with
    | true =>
        rw [if_pos rfl, wrap64_gap (by omega) (by rw [hn]; exact volSize_lt _ _)] at hr
        exact herase 2 (n - 2) (by omega) (by omega) r hr
    | false =>
        rw [if_neg (by decide)] at hr
        refine herase _ _ ?_ ?_ r hr
        · show 1 ≤ 2
          omega
        · show 2 + _ ≤ n + 1
          omega
  · rcases List.mem_map.1 hw with ⟨r, hr, rfl⟩
    have hfit : a.geom.striping.Fits 1 1 := Striping.Fits.mono _ hall (by omega)
    unfold syncIoRequests at hr
    rw [Striping.Fits.strpRange _ hfit] at hr
    rcases mem_forStripes.1 hr with ⟨i, hi, rfl⟩
    rw [Nat.add_sub_cancel_left] at hi
    exact range_behind_head hs (Nat.le_refl 1) hfit hi

/-! ## What can be mounted -/

/-- The uuids of a format differ from each other, and no header on the devices knows any of them. -/
structure FreshUuids (uuid : Nat → Uuid) (n : Nat) (old : Nat → Option HdrCommon) : Prop where
  distinct : ∀ i < n, ∀ j < n, uuid i = uuid j → i = j
  own : ∀ d l, old d = some l → ∀ i < n, l.memberUuid ≠ uuid i
  listed : ∀ d l, old d = some l → ∀ i < n, ∀ j, l.member j ≠ uuid i

/-- The devices of the unikernel, of which the first are the members of the format, hold the headers. -/
def HoldsHeaders (uenv : Shfs.MountEnv) (hdrs : Nat → Option HdrCommon) : Prop :=
  ∀ d l, uenv.label d = some l → hdrs d = some l

section Mountable

variable {a : MkfsArgs} {size : Nat → UInt64} {env : MkfsEnv} {old : Nat → Option HdrCommon}
  {uenv : Shfs.MountEnv} {info : Shfs.VolInfo} {log : Log} {m : Nat}

/-- The headers behind a format that got past the heads. -/
theorem headersAfter_past {n d j : Nat} {mid : List MkfsWrite} (hn : n = volSize a.geom d)
    (hmeta : metadataSize a.geom a.hdrConfig ≤ n)
    (hmid : ∀ w ∈ mid, w ∈ areaErases a.geom a.hdrConfig n env.fullerase ∨
      w ∈ configWrites a.geom a.hdrConfig) (hdr : HdrCommon) (m : Nat) :
    headersAfter old (headErases a.nbDevs ++ mid ++ headWrites hdr j) m =
      if m < j then some { hdr with memberUuid := hdr.member m }
      else if m < a.nbDevs then none else old m := by
  rw [headersAfter_append, headersAfter_writes, headersAfter_append,
    headersAfter_behind fun w hw => areas_behind_head hn hmeta (hmid w hw), headersAfter_erases]

/-- If a member carries the new label, a volume that it belongs to has all the new labels. -/
theorem labels_complete {n j : Nat} (hfresh : FreshUuids env.uuid a.nbDevs old)
    (hheld : ∀ d l, uenv.label d = some l → d < j ∧ l = { newHdrCommon a.geom env.uuid n with
      memberUuid := env.uuid d } ∨ old d = some l) (hj : j ≤ a.nbDevs) {h : HdrCommon}
    (hacc : Accepted uenv h) (hdev : ∃ i < h.memberCount.toNat, deviceOf uenv (h.member i) = some m)
    (hm : m < j) (hm' : ∀ l, uenv.label m = some l → l.memberUuid = env.uuid m) : j = a.nbDevs := by
  have hlt : ∀ {i}, i < j → i < a.nbDevs := fun hi => Nat.lt_of_lt_of_le hi hj
  rcases hdev with ⟨i, hi, hdev⟩
  rcases deviceOf_spec hdev with ⟨-, l, hl, hu⟩
  rw [hm' l hl] at hu
  -- the label that decides lists the uuid of a new member, so it is a new one
  have hnew : h.memberCount.toNat = a.nbDevs ∧ h.member = env.uuid := by
    have hfirst := hacc.first
    unfold firstLabel at hfirst
    rcases Option.bind_eq_some_iff.1 hfirst with ⟨d₀, -, hd₀⟩
    rcases hheld d₀ h hd₀ with ⟨-, rfl⟩ | hold
    · refine ⟨?_, rfl⟩
      show (UInt8.ofNat a.nbDevs).toNat = a.nbDevs
      have hle := a.nbDevs_le
      rw [UInt8.toNat_ofNat', Nat.mod_eq_of_lt (by omega)]
    · exact absurd hu (hfresh.listed d₀ h hold m (hlt hm) i)
  apply Nat.le_antisymm hj
  by_contra hcon
  have hjn : j < a.nbDevs := Nat.lt_of_not_le hcon
  -- all its members are found, also the one that has not got its label
  have hsome := hacc.members j (by rw [hnew.1]; exact hjn)
  rw [hnew.2] at hsome
  rcases Option.isSome_iff_exists.1 hsome with ⟨d, hd⟩
  rcases deviceOf_spec hd with ⟨-, l', hl', hu'⟩
  rcases hheld d l' hl' with ⟨hdj, rfl⟩ | hold
  · have heq := hfresh.distinct j hjn d (hlt hdj) hu'
    omega
  · exact hfresh.own d l' hold j hjn hu'.symm

/-- Wherever a format has ended, a unikernel that accepts a volume with one of its members finds on this
member the header from before, and nothing was written but to the heads of members in front of it; or the
format has completed. -/
theorem interrupted_format (hfresh : FreshUuids env.uuid a.nbDevs old)
    (hheld : HoldsHeaders uenv (headersAfter old (mkfsDone a size env)))
    (hload : loadVolCconf uenv = .ok (.ok info, log)) (hm : m ∈ info.member) (hlt : m < a.nbDevs) :
    (uenv.label m = old m ∧ ∃ k ≤ m, mkfsDone a size env = headErases k) ∨
      ∃ v, mkfs a size env = some v ∧ mkfsDone a size env = v.writes := by
  rcases loadVolCconf_label hload with ⟨h, hacc, hof⟩
  rw [hof.member] at hm
  have hdev := (mem_findMembers uenv h m).1 hm
  have hdev' := hdev
  rcases hdev' with ⟨i, -, hi⟩
  rcases deviceOf_spec hi with ⟨-, l, hl, -⟩
  have hhdr := hheld m l hl
  rcases mkfsDone_cases a size env with ⟨k, hk, hdone⟩ | ⟨n, mid, j, hmeta, hn, hmid, hdone, hj⟩
  · left
    rw [hdone, headersAfter_erases] at hhdr
    split at hhdr
    · cases hhdr
    · rename_i hmk
      exact ⟨hl.trans hhdr.symm, k, Nat.le_of_not_lt hmk, hdone⟩
  · right
    have hjle : j ≤ a.nbDevs := by
      rcases hj with hj | ⟨hj, -⟩
      · exact Nat.le_of_lt hj
      · exact Nat.le_of_eq hj
    have hall : ∀ d l, uenv.label d = some l → d < j ∧ l = { newHdrCommon a.geom env.uuid n with
        memberUuid := env.uuid d } ∨ a.nbDevs ≤ d ∧ old d = some l := by
      intro d l hd
      have hdl := hheld d l hd
      rw [hdone, headersAfter_past hn hmeta hmid] at hdl
      split at hdl
      · rename_i hdj
        exact .inl ⟨hdj, (Option.some.inj hdl).symm⟩
      · split at hdl
        · cases hdl
        · rename_i hdn
          exact .inr ⟨Nat.le_of_not_lt hdn, hdl⟩
    rcases hall m l hl with ⟨hmj, -⟩ | ⟨hnm, -⟩
    swap
    · omega
    have hown : ∀ l, uenv.label m = some l → l.memberUuid = env.uuid m := by
      intro l hl
      rcases hall m l hl with ⟨-, rfl⟩ | ⟨hnm, -⟩
      · rfl
      · omega
    have hfull := labels_complete hfresh (fun d l hd => (hall d l hd).imp_right And.right) hjle hacc hdev hmj hown
    rcases hj with hj | ⟨-, v, hv, hw⟩
    · omega
    · exact ⟨v, hv, hw.symm⟩

end Mountable

/-- The format of two members ends where the label of the second is to be written: the first has its label. -/
example : [0, 1].map (fun m => (headersAfter (fun _ => none)
    (mkfsDone { tinyArgs with nbDevs := 2, nbDevs_pos := by decide, nbDevs_le := by decide } (fun _ => 16384)
      { plainEnv with io := fun i r => 0 ≤ r.start && i != 5 }) m).isSome) = [true, false] := by decide

/-- A unikernel with one device, on which the format of a file of four stripes has put its label. -/
def freshDevice : Shfs.MountEnv where
  bdId := [0]
  openOk := fun _ => true
  info := fun _ => ⟨512, 48⟩
  label := fun d => if d = 0 then
    some { newHdrCommon tinyArgs.geom plainEnv.uuid 3 with memberUuid := plainEnv.uuid 0 } else none
  reread := true
  malloc := fun _ => true
  chk1 := some tinyArgs.hdrConfig
  setup := fun _ => true
  chunk := fun _ => none

theorem freshDevice_holds :
    HoldsHeaders freshDevice (headersAfter (fun _ => none) (mkfsDone tinyArgs (fun _ => 16384) plainEnv)) := by
  intro d l hl
  by_cases hd : d = 0
  · subst hd
    rw [← hl]
    rfl
  · change (if d = 0 then _ else none) = some l at hl
    rw [if_neg hd] at hl
    cases hl

/-- The label that it finds was put on by a format that completed. -/
theorem interrupted_format_tiny : ∃ info log v, loadVolCconf freshDevice = .ok (.ok info, log) ∧
    0 ∈ info.member ∧ mkfs tinyArgs (fun _ => 16384) plainEnv = some v ∧
    mkfsDone tinyArgs (fun _ => 16384) plainEnv = v.writes := by
  have hload : ∃ info log, loadVolCconf freshDevice = .ok (.ok info, log) ∧ 0 ∈ info.member :=
    ⟨_, _, rfl, by decide⟩
  rcases hload with ⟨info, log, hload, hm⟩
  have hfresh : FreshUuids plainEnv.uuid tinyArgs.nbDevs fun _ => none := by
    refine ⟨fun i hi j hj _ => ?_, fun d l h => ?_, fun d l h => ?_⟩
    · have h1 : i < 1 := hi
      have h2 : j < 1 := hj
      omega
    · cases h
    · cases h
  rcases interrupted_format hfresh freshDevice_holds hload hm tinyArgs.nbDevs_pos with ⟨hold, -⟩ | ⟨v, hv⟩
  · cases hold
  · exact ⟨info, log, v, hload, hm, hv⟩

end Minipython.Tools
