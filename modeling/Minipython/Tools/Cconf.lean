/-
# Minipython.Tools.Cconf — the volumes that the tools accept (shfs_admin.c, load_vol_cconf)

`shfs_admin` is given the members of a volume and no other device. It ends on the first that it cannot
open or whose label it does not know, wants every device to be a member, and knows no upper bound for a
stripe. A unikernel passes over the devices that do not belong to the volume of the first label.

A file of less than 4096 bytes leaves the rest of the buffer as the device before it has filled it.

`SameDevices` says what the two have in common: the devices in the same order with the same labels and
sizes, each of which opens and can be read on either side. The environments are otherwise their own, with
the checks that each program makes itself: block and sector sizes are acceptable to both, every device holds
at least 4096 bytes, and no allocation fails.

`loadVolCconf_iff` says of the tools what `loadVolCconf_label` says of the unikernel: a volume is accepted
exactly if the first label is sound, its members are found by their identifiers, and they are large enough.
`cconf_agree` compares these. The bound on the stripes is the unikernel's alone, and the order of the
members is that of the label on both sides.
-/
import Minipython.Lib.Pick
import Minipython.Shfs.MemberSize
import Minipython.Tools.Admin

namespace Minipython.Tools.Admin

open Minipython.Lib
open Minipython.Shfs
open Minipython.Minios (powerOf2 powerOf2_iff)

/-! ## Devices -/

/-- `struct disk`. -/
structure Disk where
  size : UInt64
  blksize : UInt32

/-- What `load_vol_cconf` meets. -/
structure CconfEnv where
  /-- the paths of the command line -/
  path : List Nat
  openOk : Nat → Bool
  disk : Nat → Disk
  readOk : Nat → Bool
  /-- the label in the first 4096 bytes -/
  hdr : Nat → HdrCommon
  /-- what a shorter file makes of the buffer -/
  short : Nat → HdrCommon → HdrCommon
  malloc : Bool
  /-- what fresh memory holds -/
  heap : HdrCommon
  /-- the second read of the first label succeeds -/
  reread : Bool

namespace CconfEnv

variable (env : CconfEnv)

/-- `read(d->fd, chk0, 4096)`. -/
def readChk0 (d : Nat) (chk0 : HdrCommon) : HdrCommon :=
  if (env.disk d).size < 4096 then env.short d chk0 else env.hdr d

end CconfEnv

/-- `struct vol_member`. -/
structure VolMember where
  d : Nat
  uuid : Uuid
  deriving DecidableEq

/-- `MAX_NB_TRY_BLKDEVS` of the tools. -/
def maxNbTryBlkdevs : Nat := shfsMaxNbMembers

/-- `checkopen_disk`: the buffer behind it. -/
def checkopenDisk (env : CconfEnv) (d : Nat) (chk0 : HdrCommon) : Except Stop HdrCommon :=
  if !env.openOk d then .error .died
  else if (env.disk d).blksize < 512 ∨ powerOf2 (env.disk d).blksize = false then .error .died
  else if !env.readOk d then .error .died
  else
    let chk0 := env.readChk0 d chk0
    if shfsDetectHdr0 chk0 < 0 then .error .died
    else .ok chk0

/-- The loop over the disks: the detected members, and the buffer behind it. -/
def detectDisks (env : CconfEnv) : List Nat → HdrCommon → Except Stop (List VolMember × HdrCommon)
  | [], chk0 => .ok ([], chk0)
  | d :: ds, chk0 => do
      let chk0 ← checkopenDisk env d chk0
      let rest ← detectDisks env ds chk0
      return (⟨d, chk0.memberUuid⟩ :: rest.1, rest.2)

/-- One turn of the inner loop: a detected member is compared with a uuid of the label. -/
def addMember (u : Uuid) (member : List VolMember) (x : VolMember) : Except Stop (List VolMember) :=
  if u = x.uuid then
    if member.any fun y => y.uuid = u then .error .died
    else .ok (member ++ [x])
  else .ok member

/-- The loops that find and add the members, over the uuids of the label. -/
def addMembers (detected : List VolMember) (us : List Uuid) (member : List VolMember) :
    Except Stop (List VolMember) :=
  us.foldlM (fun member u => detected.foldlM (addMember u) member) member

/-- `hdr_common->member`. -/
def labelUuids (h : HdrCommon) : List Uuid := (List.range h.memberCount.toNat).map h.member

/-- What `load_vol_cconf` sets up. -/
structure Cconf where
  stripemode : StripeMode
  stripesize : UInt32
  chunksize : Nat
  volsize : UInt64
  member : List VolMember

/-- `load_vol_cconf` from the label of the first detected member on. -/
def loadVolLabel (env : CconfEnv) (detected : List VolMember) (h : HdrCommon) : Except Stop Cconf :=
  match stripemodeOf h.memberStripemode with
  | none => .error .died
  | some mode => do
      let member ← addMembers detected (labelUuids h) []
      if member.length ≠ env.path.length then .error .died
      else if member.length ≠ h.memberCount.toNat then .error .died
      else if h.memberStripesize < 4096 ∨ powerOf2 h.memberStripesize = false then .error .died
      else
        let min := minMemberSize mode h.volSize member.length h.memberStripesize
        if member.any fun x => (env.disk x.d).size < min then .error .died
        else
          .ok
            { stripemode := mode
              stripesize := h.memberStripesize
              chunksize := shfsChunksize mode h.memberStripesize.toNat h.memberCount.toNat
              volsize := h.volSize
              member := member }

/-- `load_vol_cconf`. -/
def CconfEnv.loadVolCconf (env : CconfEnv) : Except Stop Cconf :=
  if env.path.length > maxNbTryBlkdevs then .error .died
  else if !env.malloc then .error .died
  else do
    let found ← detectDisks env env.path env.heap
    match found.1 with
    | [] => .error .died
    | d0 :: det =>
        if !env.reread then .error .died
        else loadVolLabel env (d0 :: det) (env.readChk0 d0.d found.2)

/-! ## What is accepted -/

namespace CconfEnv

variable (env : CconfEnv)

/-- A device that `checkopen_disk` gets through with. -/
def Opens (d : Nat) : Prop :=
  env.openOk d = true ∧ ¬((env.disk d).blksize < 512 ∨ powerOf2 (env.disk d).blksize = false) ∧
    env.readOk d = true ∧ ¬ shfsDetectHdr0 (env.hdr d) < 0

/-- The devices, each with the uuid of its label. -/
def member (d : Nat) : VolMember := ⟨d, (env.hdr d).memberUuid⟩

@[simp] theorem member_d (d : Nat) : (env.member d).d = d := rfl

@[simp] theorem member_uuid (d : Nat) : (env.member d).uuid = (env.hdr d).memberUuid := rfl

def members : List VolMember := env.path.map env.member

/-- The devices hold a chunk 0. -/
def Whole : Prop := ∀ d ∈ env.path, 4096 ≤ (env.disk d).size

end CconfEnv

/-- The devices of the command line are the members of the volume of the label `h`. -/
structure Takes (env : CconfEnv) (h : HdrCommon) : Prop where
  count : env.path.length ≤ maxNbTryBlkdevs
  malloc : env.malloc = true
  reread : env.reread = true
  opens : ∀ d ∈ env.path, env.Opens d
  first : env.path.head?.map env.hdr = some h
  members : Keyed VolMember.uuid (labelUuids h) env.members
  stripesize : ¬(h.memberStripesize < 4096 ∨ powerOf2 h.memberStripesize = false)
  size : ∃ mode, stripemodeOf h.memberStripemode = some mode ∧
    ∀ d ∈ env.path, minMemberSize mode h.volSize h.memberCount.toNat h.memberStripesize ≤ (env.disk d).size

/-- What `load_vol_cconf` makes of the label `h`. -/
structure Cconf.Of (env : CconfEnv) (h : HdrCommon) (c : Cconf) : Prop where
  stripemode : stripemodeOf h.memberStripemode = some c.stripemode
  stripesize : c.stripesize = h.memberStripesize
  chunksize : c.chunksize = shfsChunksize c.stripemode h.memberStripesize.toNat h.memberCount.toNat
  volsize : c.volsize = h.volSize
  member : c.member = pick VolMember.uuid (labelUuids h) env.members

section Detect

variable {env : CconfEnv} {d : Nat} {ds : List Nat} {chk0 chk0' : HdrCommon}

theorem readChk0_whole (hd : 4096 ≤ (env.disk d).size) : env.readChk0 d chk0 = env.hdr d :=
  if_neg (UInt64.not_lt.2 hd)

theorem checkopenDisk_ok (hd : 4096 ≤ (env.disk d).size) :
    checkopenDisk env d chk0 = .ok chk0' ↔ env.Opens d ∧ chk0' = env.hdr d := by
  unfold checkopenDisk CconfEnv.Opens
  rw [readChk0_whole hd]
  by_cases ho : env.openOk d = true
  · by_cases hb : (env.disk d).blksize < 512 ∨ powerOf2 (env.disk d).blksize = false
    · simp [ho, hb]
    · by_cases hr : env.readOk d = true
      · by_cases hl : shfsDetectHdr0 (env.hdr d) < 0
        · simp [ho, hb, hr, hl]
        · rw [if_neg (by simp [ho]), if_neg hb, if_neg (by simp [hr]), if_neg hl]
          constructor
          · intro h
            exact ⟨⟨ho, hb, hr, hl⟩, (Except.ok.inj h).symm⟩
          · rintro ⟨-, rfl⟩
            rfl
      · simp [ho, hb, hr]
  · simp [ho]

/-- The loop gets through if every device opens, and has then seen them all. -/
theorem detectDisks_ok (hds : ∀ d ∈ ds, 4096 ≤ (env.disk d).size) {ms : List VolMember} :
    (∃ b, detectDisks env ds chk0 = .ok (ms, b)) ↔
      (∀ d ∈ ds, env.Opens d) ∧ ms = ds.map env.member := by
  induction ds generalizing chk0 ms with
  | nil => simp [detectDisks, eq_comm]
  | cons d ds ih =>
      have hd := hds d List.mem_cons_self
      have ih := fun chk0 ms => @ih chk0 (fun e he => hds e (List.mem_cons_of_mem d he)) ms
      constructor
      · rintro ⟨b, h⟩
        obtain ⟨b1, h1, h⟩ := bind_eq_ok.1 h
        obtain ⟨⟨rest, b2⟩, h2, h⟩ := bind_eq_ok.1 h
        obtain ⟨hopen, rfl⟩ := (checkopenDisk_ok hd).1 h1
        obtain ⟨hall, rfl⟩ := (ih _ _).1 ⟨b2, h2⟩
        obtain ⟨rfl, -⟩ := Prod.mk.inj (Except.ok.inj h)
        exact ⟨List.forall_mem_cons.2 ⟨hopen, hall⟩, rfl⟩
      · rintro ⟨hall, rfl⟩
        obtain ⟨hopen, hall⟩ := List.forall_mem_cons.1 hall
        obtain ⟨b, h2⟩ := (ih (env.hdr d) _).2 ⟨hall, rfl⟩
        refine ⟨b, ?_⟩
        apply bind_eq_ok.2
        refine ⟨env.hdr d, (checkopenDisk_ok hd).2 ⟨hopen, rfl⟩, ?_⟩
        apply bind_eq_ok.2
        exact ⟨_, h2, rfl⟩

end Detect

section Members

variable {u : Uuid} {us : List Uuid} {xs member member' : List VolMember}

/-- One uuid of the label adds the members that have it, unless one was there already. -/
theorem addMember_ok (hnodup : (member.map VolMember.uuid).Nodup) :
    xs.foldlM (addMember u) member = .ok member' ↔
      member' = member ++ xs.filter (fun x => u = x.uuid) ∧ (member'.map VolMember.uuid).Nodup := by
  induction xs generalizing member with
  | nil =>
      rw [List.filter_nil, List.append_nil]
      constructor
      · intro h
        obtain rfl := Except.ok.inj h
        exact ⟨rfl, hnodup⟩
      · rintro ⟨rfl, -⟩
        rfl
  | cons x xs ih =>
      rw [List.foldlM_cons, addMember, List.filter_cons]
      by_cases hx : u = x.uuid
      · simp only [hx, if_true, decide_true]
        by_cases hany : (member.any fun y => decide (y.uuid = x.uuid)) = true
        · rw [if_pos hany]
          obtain ⟨y, hy, hkey⟩ := List.any_eq_true.1 hany
          constructor
          · intro h
            cases h
          · rintro ⟨rfl, hdup⟩
            rw [List.map_append, List.nodup_append] at hdup
            have hmem : x.uuid ∈ member.map VolMember.uuid := by
              rw [← of_decide_eq_true hkey]
              exact List.mem_map_of_mem hy
            exact absurd rfl (hdup.2.2 _ hmem _ (List.mem_map_of_mem List.mem_cons_self))
        · rw [if_neg hany]
          have hsnoc : ((member ++ [x]).map VolMember.uuid).Nodup := by
            rw [List.map_append, List.map_singleton, ← List.concat_eq_append]
            refine hnodup.concat fun hmem => hany ?_
            obtain ⟨y, hy, hkey⟩ := List.mem_map.1 hmem
            exact List.any_eq_true.2 ⟨y, hy, decide_eq_true hkey⟩
          have := ih hsnoc
          rw [hx, List.append_assoc] at this
          exact this
      · simp only [hx, if_false, decide_false, Bool.false_eq_true]
        exact ih hnodup

/-- The loops add what the label names, unless it names a member twice or two devices have one uuid. -/
theorem addMembers_ok (hnodup : (member.map VolMember.uuid).Nodup) :
    addMembers xs us member = .ok member' ↔
      member' = member ++ pick VolMember.uuid us xs ∧ (member'.map VolMember.uuid).Nodup := by
  induction us generalizing member with
  | nil =>
      rw [pick_nil, List.append_nil]
      constructor
      · intro h
        obtain rfl := Except.ok.inj h
        exact ⟨rfl, hnodup⟩
      · rintro ⟨rfl, -⟩
        rfl
  | cons u us ih =>
      rw [pick_cons, ← List.append_assoc]
      constructor
      · intro h
        obtain ⟨s, h1, h2⟩ := bind_eq_ok.1 h
        obtain ⟨rfl, hs⟩ := (addMember_ok hnodup).1 h1
        exact (ih hs).1 h2
      · rintro ⟨rfl, hs⟩
        have hfirst : ((member ++ xs.filter fun x => decide (u = x.uuid)).map VolMember.uuid).Nodup := by
          rw [List.map_append] at hs
          exact List.Nodup.of_append_left hs
        apply bind_eq_ok.2
        exact ⟨_, (addMember_ok hnodup).2 ⟨rfl, hfirst⟩, (ih hfirst).2 ⟨rfl, hs⟩⟩

theorem addMembers_nil : addMembers xs us [] = .ok member ↔
    member = pick VolMember.uuid us xs ∧ (member.map VolMember.uuid).Nodup :=
  addMembers_ok List.nodup_nil

/-- No more members are added than there are devices, so the array of 16 holds them at any time. -/
theorem addMembers_length (h : addMembers xs us [] = .ok member) : member.length ≤ xs.length := by
  obtain ⟨rfl, hnodup⟩ := addMembers_nil.1 h
  refine (List.subperm_of_subset (List.Nodup.of_map _ hnodup) fun x hx => ?_).length_le
  exact (mem_pick.1 hx).1

end Members

section Accept

variable {env : CconfEnv} {h : HdrCommon} {c : Cconf} {detected : List VolMember}

theorem labelUuids_length (h : HdrCommon) : (labelUuids h).length = h.memberCount.toNat := by
  simp [labelUuids]

/-- From the label on: the uuids fit, and the sizes are in order. -/
theorem loadVolLabel_ok : loadVolLabel env env.members h = .ok c ↔
    Keyed VolMember.uuid (labelUuids h) env.members ∧
      ¬(h.memberStripesize < 4096 ∨ powerOf2 h.memberStripesize = false) ∧
      (∃ mode, stripemodeOf h.memberStripemode = some mode ∧ ∀ d ∈ env.path,
        minMemberSize mode h.volSize h.memberCount.toNat h.memberStripesize ≤ (env.disk d).size) ∧
      c.Of env h := by
  have hpath : env.members.length = env.path.length := List.length_map _
  have hlabel := labelUuids_length h
  unfold loadVolLabel
  cases hmode : stripemodeOf h.memberStripemode with
  | none => simp
  | some mode =>
      constructor
      · intro hload
        obtain ⟨member, hadd, hload⟩ := bind_eq_ok.1 hload
        obtain ⟨rfl, hnodup⟩ := addMembers_nil.1 hadd
        split at hload
        · cases hload
        split at hload
        · cases hload
        split at hload
        · cases hload
        dsimp only at hload
        split at hload
        · cases hload
        rename_i hdevs hcount hs hany
        have hkeyed : Keyed VolMember.uuid (labelUuids h) env.members := by
          refine keyed_iff_pick.2 ⟨hnodup, ?_, ?_⟩
          · rw [hpath]
            exact not_not.1 hdevs
          · rw [hlabel]
            exact not_not.1 hcount
        obtain rfl := Except.ok.inj hload
        refine ⟨hkeyed, hs, ⟨mode, rfl, fun d hd => ?_⟩, hmode, rfl, rfl, rfl, rfl⟩
        apply UInt64.not_lt.1
        intro hlt
        apply hany
        rw [not_not.1 hcount]
        have hmem := hkeyed.perm.mem_iff.2 (List.mem_map_of_mem (f := env.member) hd)
        exact List.any_eq_true.2 ⟨_, hmem, decide_eq_true hlt⟩
      · rintro ⟨hkeyed, hs, ⟨mode', hmode', hsize⟩, hof⟩
        obtain rfl := Option.some.inj hmode'
        obtain ⟨hnodup, hdevs, hcount⟩ := keyed_iff_pick.1 hkeyed
        rw [hpath] at hdevs
        rw [hlabel] at hcount
        apply bind_eq_ok.2
        refine ⟨pick VolMember.uuid (labelUuids h) env.members,
          addMembers_nil.2 ⟨rfl, hnodup⟩, ?_⟩
        rw [if_neg (not_not.2 hdevs), if_neg (not_not.2 hcount), if_neg hs, hcount, if_neg]
        · obtain ⟨rmode, rstripe, rchunk, rvol, rmember⟩ := hof
          rw [hmode] at rmode
          obtain rfl := Option.some.inj rmode
          cases c
          simp only at rstripe rchunk rvol rmember
          subst rstripe rchunk rvol rmember
          rfl
        · intro hany
          obtain ⟨x, hx, hlt⟩ := List.any_eq_true.1 hany
          obtain ⟨d, hd, rfl⟩ := List.mem_map.1 (mem_pick.1 hx).1
          exact UInt64.not_lt.2 (hsize d hd) (of_decide_eq_true hlt)

/-- `load_vol_cconf` of the tools accepts the members of a volume, each once, and nothing besides. -/
theorem loadVolCconf_iff (hwhole : env.Whole) :
    env.loadVolCconf = .ok c ↔ ∃ h, Takes env h ∧ c.Of env h := by
  have hdetect := fun ms => @detectDisks_ok env env.path env.heap hwhole ms
  constructor
  · intro hload
    unfold CconfEnv.loadVolCconf at hload
    split at hload
    · cases hload
    split at hload
    · cases hload
    rename_i hcount hmalloc
    obtain ⟨⟨ms, b⟩, hfound, hload⟩ := bind_eq_ok.1 hload
    obtain ⟨hopens, rfl⟩ := (hdetect ms).1 ⟨b, hfound⟩
    cases hpath : env.path with
    | nil =>
        rw [hpath] at hload
        cases hload
    | cons d ds =>
        have hd : d ∈ env.path := by
          rw [hpath]
          exact List.mem_cons_self
        rw [hpath] at hload
        cases hre : env.reread with
        | false =>
            simp only [List.map_cons, hre] at hload
            cases hload
        | true =>
            have hload : loadVolLabel env env.members (env.readChk0 d b) = .ok c := by
              unfold CconfEnv.members
              rw [hpath]
              simpa [hre] using hload
            rw [readChk0_whole (hwhole d hd)] at hload
            obtain ⟨hkeyed, hs, hsize, hof⟩ := loadVolLabel_ok.1 hload
            refine ⟨env.hdr d, ⟨Nat.le_of_not_lt hcount, by simpa using hmalloc, hre, hopens, ?_, hkeyed, hs,
              hsize⟩, hof⟩
            rw [hpath]
            rfl
  · rintro ⟨h, ht, hof⟩
    obtain ⟨b, hfound⟩ := (hdetect _).2 ⟨ht.opens, rfl⟩
    unfold CconfEnv.loadVolCconf
    rw [if_neg (Nat.not_lt.2 ht.count), if_neg (by simp [ht.malloc])]
    apply bind_eq_ok.2
    refine ⟨_, hfound, ?_⟩
    have hfirst := ht.first
    cases hpath : env.path with
    | nil =>
        rw [hpath] at hfirst
        cases hfirst
    | cons d ds =>
        have hd : d ∈ env.path := by
          rw [hpath]
          exact List.mem_cons_self
        rw [hpath] at hfirst
        obtain rfl : env.hdr d = h := Option.some.inj hfirst
        have hlabel := loadVolLabel_ok.2 ⟨ht.members, ht.stripesize, ht.size, hof⟩
        rw [← @readChk0_whole env d b (hwhole d hd)] at hlabel
        unfold CconfEnv.members at hlabel
        rw [hpath] at hlabel
        simpa [ht.reread] using hlabel

end Accept

/-! ## The tools and a unikernel -/

/-- The same devices are given to the tools and to a unikernel, and both can open and read them. -/
structure SameDevices (env : CconfEnv) (uenv : Shfs.MountEnv) : Prop where
  bdId : uenv.bdId = env.path
  hdr : ∀ d ∈ env.path, uenv.label d = some (env.hdr d)
  size : ∀ d ∈ env.path, (uenv.info d).blkdevSize = (env.disk d).size
  whole : env.Whole
  blksize : ∀ d ∈ env.path, ¬((env.disk d).blksize < 512 ∨ powerOf2 (env.disk d).blksize = false)
  sectorSize : ∀ d ∈ env.path, ¬((uenv.info d).sectorSize > 4096 ∨ (uenv.info d).sectorSize < 512 ∨
    powerOf2 (uenv.info d).sectorSize = false)
  openOk : ∀ d ∈ env.path, env.openOk d = true ∧ uenv.openOk d = true
  readOk : ∀ d ∈ env.path, env.readOk d = true
  reread : env.reread = true ∧ uenv.reread = true
  malloc : env.malloc = true ∧ uenv.malloc .chk0 = true

/-- Both have set up the same volume. -/
structure SameVolume (c : Cconf) (info : Shfs.VolInfo) : Prop where
  stripemode : c.stripemode = info.geom.stripemode
  stripesize : c.stripesize.toNat = info.geom.stripesize
  chunksize : c.chunksize = info.geom.chunksize
  volsize : c.volsize = info.volsize
  member : c.member.map VolMember.d = info.member

section Agree

variable {env : CconfEnv} {uenv : Shfs.MountEnv} {h : HdrCommon} {c : Cconf} {info : Shfs.VolInfo}
  {d : Nat}

namespace SameDevices

variable (hs : SameDevices env uenv)

include hs

theorem usable_iff (hd : d ∈ env.path) : Shfs.usable uenv d = true ↔ ¬ shfsDetectHdr0 (env.hdr d) < 0 := by
  simp [Shfs.usable, (hs.openOk d hd).2, hs.sectorSize d hd, hs.hdr d hd]

theorem opens_iff (hd : d ∈ env.path) : env.Opens d ↔ Shfs.usable uenv d = true := by
  rw [hs.usable_iff hd]
  simp [CconfEnv.Opens, (hs.openOk d hd).1, hs.blksize d hd, hs.readOk d hd]

theorem usableDevs_eq (hall : ∀ d ∈ env.path, Shfs.usable uenv d = true) : usableDevs uenv = env.path := by
  unfold usableDevs
  rw [hs.bdId]
  exact List.filter_eq_self.2 hall

theorem firstLabel_iff (hall : ∀ d ∈ env.path, Shfs.usable uenv d = true) :
    firstLabel uenv = some h ↔ env.path.head?.map env.hdr = some h := by
  unfold firstLabel
  rw [hs.usableDevs_eq hall]
  cases hpath : env.path with
  | nil => simp
  | cons d ds => simp [hs.hdr d (by simp [hpath])]

/-- The device that a uuid stands for is the first that the tools have detected with it. -/
theorem deviceOf_eq (hall : ∀ d ∈ env.path, Shfs.usable uenv d = true) (u : Uuid) :
    deviceOf uenv u = (env.members.find? fun x => u = x.uuid).map VolMember.d := by
  unfold deviceOf CconfEnv.members
  rw [hs.usableDevs_eq hall, List.find?_map, Option.map_map]
  have hid : VolMember.d ∘ env.member = id := rfl
  rw [hid, Option.map_id]
  apply List.find?_congr
  intro d hd
  rw [hs.hdr d hd]
  rfl

end SameDevices

theorem findMembers_labelUuids (uenv : Shfs.MountEnv) (h : HdrCommon) :
    findMembers h (detectMembers uenv uenv.bdId).1 = (labelUuids h).filterMap (deviceOf uenv) := by
  rw [findMembers_eq, labelUuids, List.filterMap_map]
  rfl

theorem Takes.usable (hs : SameDevices env uenv) (ht : Takes env h) :
    ∀ d ∈ env.path, Shfs.usable uenv d = true := fun d hd => (hs.opens_iff hd).1 (ht.opens d hd)

/-- The members in the order of the label are the same devices on both sides. -/
theorem Takes.member (hs : SameDevices env uenv) (ht : Takes env h) (hof : c.Of env h) :
    c.member.map VolMember.d = findMembers h (detectMembers uenv uenv.bdId).1 := by
  have hnodup : (env.members.map VolMember.uuid).Nodup := ht.members.2.nodup_iff.1 ht.members.1
  rw [findMembers_labelUuids, hof.member, pick_eq_filterMap hnodup, List.map_filterMap]
  apply List.filterMap_congr
  intro u _
  exact (hs.deviceOf_eq (ht.usable hs) u).symm

theorem Takes.path_nodup (ht : Takes env h) : env.path.Nodup := by
  have hnodup : (env.members.map VolMember.uuid).Nodup := ht.members.2.nodup_iff.1 ht.members.1
  exact List.Nodup.of_map _ (List.Nodup.of_map _ hnodup)

theorem Takes.member_perm (ht : Takes env h) (hof : c.Of env h) :
    (c.member.map VolMember.d).Perm env.path := by
  have hperm := ht.members.perm.map VolMember.d
  rw [← hof.member] at hperm
  have hid : env.members.map VolMember.d = env.path := by
    simp [CconfEnv.members, Function.comp_def]
  rwa [hid] at hperm

/-- What the tools take, a unikernel takes unless the stripes are too large. -/
theorem Takes.accepted (hs : SameDevices env uenv) (ht : Takes env h)
    (hle : h.memberStripesize ≤ 32768) : Accepted uenv h where
  count := by
    have hcount := ht.count
    rw [hs.bdId]
    unfold maxNbTryBlkdevs shfsMaxNbMembers at hcount
    unfold Shfs.maxNbTryBlkdevs
    omega
  chk0 := hs.malloc.2
  first := (hs.firstLabel_iff (ht.usable hs)).2 ht.first
  reread := hs.reread.2
  members := by
    intro i hi
    rw [hs.deviceOf_eq (ht.usable hs), Option.isSome_map, List.find?_isSome]
    have hmem : h.member i ∈ labelUuids h := List.mem_map_of_mem (List.mem_range.2 hi)
    obtain ⟨x, hx, hkey⟩ := List.mem_map.1 (ht.members.2.mem_iff.1 hmem)
    exact ⟨x, hx, by simp [hkey]⟩
  stripesize := by
    have hstripe := ht.stripesize
    rw [not_or] at hstripe ⊢
    exact ⟨UInt32.not_lt.2 hle, not_or.2 hstripe⟩
  size := by
    obtain ⟨mode, hmode, hsize⟩ := ht.size
    refine ⟨mode, hmode, fun i hi d hdev => ?_⟩
    have hd := (deviceOf_spec hdev).1
    rw [hs.usableDevs_eq (ht.usable hs)] at hd
    rw [hs.size d hd]
    exact hsize d hd

/-- A volume that a unikernel takes and that has every device as a member is one for the tools. -/
theorem takes_of_accepted (hs : SameDevices env uenv) (hacc : Accepted uenv h)
    (hnodup : (findMembers h (detectMembers uenv uenv.bdId).1).Nodup)
    (hperm : (findMembers h (detectMembers uenv uenv.bdId).1).Perm env.path) : Takes env h := by
  have hmem := fun d => mem_findMembers uenv h d
  have huse : ∀ d ∈ env.path, Shfs.usable uenv d = true := by
    intro d hd
    obtain ⟨i, -, hdev⟩ := (hmem d).1 (hperm.mem_iff.2 hd)
    exact (List.mem_filter.1 (deviceOf_spec hdev).1).2
  have hfirst := (hs.firstLabel_iff huse).1 hacc.first
  have hdetect : ¬ shfsDetectHdr0 h < 0 := by
    obtain ⟨d, hd, rfl⟩ := Option.map_eq_some_iff.1 hfirst
    have hd := List.mem_of_head? hd
    exact (hs.usable_iff hd).1 (huse d hd)
  -- the members have the uuids of the label, one by one
  have hkeys : (findMembers h (detectMembers uenv uenv.bdId).1).map (fun d => (env.hdr d).memberUuid) =
      labelUuids h := by
    rw [findMembers_labelUuids, List.map_filterMap]
    calc (labelUuids h).filterMap (fun u => (deviceOf uenv u).map fun d => (env.hdr d).memberUuid)
        = (labelUuids h).filterMap some := by
          apply List.filterMap_congr
          intro u hu
          obtain ⟨i, hi, rfl⟩ := List.mem_map.1 hu
          obtain ⟨d, hdev⟩ := Option.isSome_iff_exists.1 (hacc.members i (List.mem_range.1 hi))
          obtain ⟨hd, l, hl, huuid⟩ := deviceOf_spec hdev
          rw [hs.usableDevs_eq huse] at hd
          rw [hs.hdr d hd] at hl
          rw [hdev, Option.map_some, huuid, ← Option.some.inj hl]
      _ = labelUuids h := List.filterMap_some
  refine ⟨?_, hs.malloc.1, hs.reread.1, fun d hd => (hs.opens_iff hd).2 (huse d hd), hfirst, ?_, ?_, ?_⟩
  · rw [← hperm.length_eq, (findMembers_length uenv h).2 hacc.members]
    exact (memberCount_bounds hdetect).2
  · constructor
    · apply List.Nodup.map_on _ List.nodup_range
      have hdistinct := (findMembers_nodup hacc.members).1 hnodup
      intro i hi j hj
      exact hdistinct i (List.mem_range.1 hi) j (List.mem_range.1 hj)
    · rw [← hkeys]
      have hmap := hperm.map fun d => (env.hdr d).memberUuid
      simpa [CconfEnv.members, Function.comp_def] using hmap
  · exact fun hstripe => hacc.stripesize (.inr hstripe)
  · obtain ⟨mode, hmode, hsize⟩ := hacc.size
    refine ⟨mode, hmode, fun d hd => ?_⟩
    obtain ⟨i, hi, hdev⟩ := (hmem d).1 (hperm.mem_iff.2 hd)
    rw [← hs.size d hd]
    exact hsize i hi d hdev

/-- Both take the label of the first device. -/
theorem Takes.label_eq {h' : HdrCommon} (hs : SameDevices env uenv) (ht : Takes env h)
    (hacc : Accepted uenv h') : h' = h := by
  have hfirst := (hs.firstLabel_iff (ht.usable hs)).1 hacc.first
  rw [ht.first] at hfirst
  exact (Option.some.inj hfirst).symm

theorem Takes.sameVolume (hs : SameDevices env uenv) (ht : Takes env h) (hof : c.Of env h)
    (huof : info.Of uenv h) : SameVolume c info := by
  have hmode : c.stripemode = info.geom.stripemode :=
    Option.some.inj (hof.stripemode.symm.trans huof.stripemode)
  refine ⟨hmode, ?_, ?_, ?_, ?_⟩
  · rw [hof.stripesize, huof.stripesize]
  · rw [hof.chunksize, VolGeom.chunksize, hmode, huof.stripesize, huof.nbMembers]
  · rw [hof.volsize, huof.volsize]
  · rw [ht.member hs hof, huof.member]

/-- On the same devices: a unikernel mounts what the tools administrate unless the stripes are too large,
the tools administrate what a unikernel mounts if every device is a member, and both see one volume. Same
devices are given to both in one order, and open, are read and hold 4096 bytes on both sides, with block and
sector sizes that are acceptable and no lack of memory. -/
theorem cconf_agree (hs : SameDevices env uenv) :
    (∀ c, env.loadVolCconf = .ok c →
      ((∃ info log, Shfs.loadVolCconf uenv = .ok (.ok info, log)) ↔ c.stripesize ≤ 32768)) ∧
    (∀ info log, Shfs.loadVolCconf uenv = .ok (.ok info, log) →
      ((∃ c, env.loadVolCconf = .ok c) ↔ info.member.Nodup ∧ info.member.Perm env.path)) ∧
    ∀ c info log, env.loadVolCconf = .ok c → Shfs.loadVolCconf uenv = .ok (.ok info, log) →
      SameVolume c info := by
  have htool := fun c => loadVolCconf_iff (c := c) hs.whole
  refine ⟨fun c hc => ?_, fun info log hinfo => ?_, fun c info log hc hinfo => ?_⟩
  · obtain ⟨h, ht, hof⟩ := (htool c).1 hc
    rw [hof.stripesize]
    constructor
    · rintro ⟨info, log, hinfo⟩
      obtain ⟨h', hacc, -⟩ := loadVolCconf_label hinfo
      obtain rfl := ht.label_eq hs hacc
      exact UInt32.not_lt.1 fun hlt => hacc.stripesize (.inl hlt)
    · intro hle
      have hnodup : uenv.bdId.Nodup := by
        rw [hs.bdId]
        exact ht.path_nodup
      obtain ⟨r, log, hload, hspec⟩ := loadVolCconf_spec hnodup
      cases r with
      | error e => exact absurd (ht.accepted hs hle) (hspec.1 h)
      | ok info => exact ⟨info, log, hload⟩
  · obtain ⟨h, hacc, huof⟩ := loadVolCconf_label hinfo
    constructor
    · rintro ⟨c, hc⟩
      obtain ⟨h', ht, hof⟩ := (htool c).1 hc
      obtain rfl := ht.label_eq hs hacc
      rw [huof.member, ← ht.member hs hof]
      have hperm := ht.member_perm hof
      exact ⟨hperm.nodup_iff.2 ht.path_nodup, hperm⟩
    · rintro ⟨hnodup, hperm⟩
      rw [huof.member] at hnodup hperm
      have ht := takes_of_accepted hs hacc hnodup hperm
      obtain ⟨mode, hmode, -⟩ := ht.size
      exact ⟨⟨mode, h.memberStripesize,
          shfsChunksize mode h.memberStripesize.toNat h.memberCount.toNat, h.volSize,
          pick VolMember.uuid (labelUuids h) env.members⟩,
        (htool _).2 ⟨h, ht, hmode, rfl, rfl, rfl, rfl⟩⟩
  · obtain ⟨h, ht, hof⟩ := (htool c).1 hc
    obtain ⟨h', hacc, huof⟩ := loadVolCconf_label hinfo
    obtain rfl := ht.label_eq hs hacc
    exact ht.sameVolume hs hof huof

end Agree

/-- The devices of a unikernel as files of the tools. -/
def toolsOf (uenv : Shfs.MountEnv) (path : List Nat) : CconfEnv where
  path := path
  openOk := fun _ => true
  disk := fun d => ⟨(uenv.info d).blkdevSize, 4096⟩
  readOk := fun _ => true
  hdr := fun d => (uenv.label d).getD emptyLabel
  short := fun _ chk0 => chk0
  malloc := true
  heap := emptyLabel
  reread := true
where
  emptyLabel : HdrCommon := ⟨[], (0, 0), 0, 0, 0, 0, 0, 0, fun _ => 0⟩

/-- Two devices with one volume on both in turn. -/
theorem pair_same : SameDevices (toolsOf pairMount [1, 0]) { pairMount with bdId := [1, 0] } := by
  have hsize : 4096 ≤ BlkdevInfo.blkdevSize ⟨512, 16⟩ := by decide
  exact
    { bdId := rfl
      hdr := fun _ _ => rfl
      size := fun _ _ => rfl
      whole := fun _ _ => hsize
      blksize := fun _ _ => by
        show ¬((4096 : UInt32) < 512 ∨ powerOf2 4096 = false)
        decide
      sectorSize := fun _ _ => by
        show ¬((512 : UInt32) > 4096 ∨ (512 : UInt32) < 512 ∨ powerOf2 512 = false)
        decide
      openOk := fun _ _ => ⟨rfl, rfl⟩
      readOk := fun _ _ => rfl
      reread := ⟨rfl, rfl⟩
      malloc := ⟨rfl, rfl⟩ }

/-- Given in the other order, they are still the first and the second member for both. -/
theorem cconf_agree_pair : ∃ c info log, (toolsOf pairMount [1, 0]).loadVolCconf = .ok c ∧
    Shfs.loadVolCconf { pairMount with bdId := [1, 0] } = .ok (.ok info, log) ∧
    info.member = [0, 1] ∧ SameVolume c info := by
  obtain ⟨c, hc⟩ : ∃ c, (toolsOf pairMount [1, 0]).loadVolCconf = .ok c := ⟨_, rfl⟩
  obtain ⟨h1, -, h3⟩ := cconf_agree pair_same
  have hstripe : c.stripesize ≤ 32768 := by
    obtain rfl := Except.ok.inj (hc.symm.trans (rfl : (toolsOf pairMount [1, 0]).loadVolCconf = .ok _))
    decide
  obtain ⟨info, log, hinfo⟩ := (h1 c hc).2 hstripe
  have hsame := h3 c info log hc hinfo
  refine ⟨c, info, log, hc, hinfo, ?_, hsame⟩
  obtain rfl := Except.ok.inj (hc.symm.trans (rfl : (toolsOf pairMount [1, 0]).loadVolCconf = .ok _))
  exact hsame.member.symm

end Minipython.Tools.Admin
