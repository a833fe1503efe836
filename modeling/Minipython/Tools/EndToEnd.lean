/-
# Minipython.Tools.EndToEnd — what the tools store is what the unikernel reads

The tools and the unikernel place the entries of the table, map chunks to members and cut files into
chunks on their own. The two halves meet at `Keeps`: sessions of `add-obj` and `rm-obj` leave a table and
members that keep the files (Objects), and a unikernel that mounts such members finds exactly these files
and reads their bytes (`Keeps.readBack`). The label that it mounts by is that of the format, which no
session writes to (`labelled_frame`).

No session tests whether a container could be put on the allocator list. Where that fails, the next file
may get the same chunks (`unregistered_object_overwritten`).

A run begins behind a format and ends with no session open. Its tokens add and remove objects and return 0;
the transfers of the members are complete, and none fails. `storeOf` is what a user expects of the volume
after such a history, `ReadBack` what a unikernel gives him: it finds the digests of the store and no
others, and reads the bytes of their files.

That a unikernel can mount the volume is taken as given, since it needs memory and refuses devices that are
too large. That it can read the table is not: `loadVolHtable_members` says so for every table that the
members keep.
-/
import Minipython.Shfs.MountAtomic
import Minipython.Tools.Format
import Minipython.Tools.Objects

namespace Minipython.Tools.Admin

open Minipython.Lib
open Minipython.Shfs
open Htable

/-! ## The unikernel on the members -/

/-- What the unikernel reads of chunks it reads from the members, whose sectors have the sizes `ssize`. -/
def ReadsMembers (V : Volume) (ssize : Nat → Nat) (d : Members) (rd : Nat → Option Bytes) : Prop :=
  ∀ c < V.volsize, ∀ b, rd c = some b → ∃ io heap, shfsReadChunk V.g ssize d io c heap = .ok b

/-- The devices of the unikernel hold the volume with the label `hdr`: what can be read of them is what the
members hold. -/
structure Attached (V : Volume) (hdr : HdrCommon) (ssize : Nat → Nat) (d : Members)
    (uenv : Shfs.MountEnv) : Prop where
  label : ∀ dev h, uenv.label dev = some h →
    ∃ m < V.args.nbDevs, h = { hdr with memberUuid := hdr.member m }
  config : ∀ c, uenv.chk1 = some c → c = V.hdr
  chunk : ReadsMembers V ssize d uenv.chunk

/-- `shfs_fio_read` of the whole file behind an entry, with what it meets. -/
def readFile (V : Volume) (ssize : Nat → Nat) (d : Members) (e : Hentry) (mem : Bool)
    (io : Nat → IoRequest → Bool) (chkBuf : Nat → Bytes) (buf : Bytes) : Int × Reading :=
  shfsFioRead V.conf e mem (fun i c => shfsReadChunk V.g ssize d (io i) c (chkBuf i)) 0 e.len buf

/-- The unikernel reads the file: whenever it returns 0, and with memory and without an I/O error it does. -/
structure ReadsFile (V : Volume) (ssize : Nat → Nat) (d : Members) (e : Hentry) (f : StoredFile) : Prop where
  len : e.len = f.size
  bytes : ∀ mem io chkBuf buf, (readFile V ssize d e mem io chkBuf buf).1 = 0 →
    ∀ k < f.size, (readFile V ssize d e mem io chkBuf buf).2.buf k = f.data k
  returns : ∀ io chkBuf buf, (∀ i r, io i r = true) → (readFile V ssize d e true io chkBuf buf).1 = 0

/-- A mounted volume finds the digests that are bound, and reads their files. -/
structure Agrees (V : Volume) (ssize : Nat → Nat) (st : Store) (d : Members) (vol : Vol) : Prop where
  found : ∀ h, (shfsBtableLookup vol.bt h).isSome = (st h).isSome
  read : ∀ h f el, st h = some f → shfsBtableLookup vol.bt h = some el →
    ReadsFile V ssize d (vol.hentry el) f

/-- Whatever the unikernel mounts from the members agrees with the files, and the table can be loaded
wherever its chunks can be read. -/
structure ReadBack (V : Volume) (hdr : HdrCommon) (st : Store) (d : Members) : Prop where
  loads : ∀ ssize rd, (∀ m < V.g.nbMembers, SsizeOk (ssize m)) → ReadsMembers V ssize d rd →
    (∀ c < V.htableLen, (rd (V.conf.htableChunk c)).isSome = true) →
    ∃ vol, Shfs.loadVolHtable V.conf rd = .ok (.ok vol) ∧ Agrees V ssize st d vol
  mounts : ∀ ssize uenv out, (∀ m < V.g.nbMembers, SsizeOk (ssize m)) → Attached V hdr ssize d uenv →
    Mount.mountShfs uenv false = .ok out → out.shfsMounted = true →
    ∃ vol, out.vol = some vol ∧ Agrees V ssize st d vol

section Read

variable {V : Volume} {ssize : Nat → Nat} {st : Store} {d : Members} {e : Hentry} {f : StoredFile}

/-- The reader returns the bytes of a file that is in its container. -/
theorem FileAt.reads (hs : ∀ m < V.g.nbMembers, SsizeOk (ssize m)) (hf : FileAt V d e f) :
    ReadsFile V ssize d e f where
  len := hf.len
  bytes := by
    intro mem io chkBuf buf hret k hk
    cases mem with
    | false =>
        unfold readFile shfsFioRead at hret
        rw [fioReader_passes hf.file e.len_lt e.len_lt (.inl (Nat.le_of_eq (Nat.zero_add _))),
          if_neg Bool.false_ne_true] at hret
        have hne : (ErrRet.enomem : Int) ≠ 0 := by decide
        exact absurd hret hne
    | true =>
        rw [← hf.bytes k hk]
        exact fioRead_bytes hs hf.file hf.inside hret k (by rw [hf.len]; exact hk)
  returns := by
    intro io chkBuf buf hio
    by_cases hpos : 0 < e.len
    · exact fioRead_ret hs hf.file hf.inside hpos hio
    · -- of an empty file no chunk is read
      have hzero : e.len = 0 := by omega
      unfold readFile shfsFioRead
      rw [fioReader_passes hf.file e.len_lt e.len_lt (.inl (Nat.le_of_eq (Nat.zero_add _))), if_pos rfl,
        hzero, fioLoop]

/-! ## The table of the unikernel -/

/-- The unikernel loads the table that is on the members. -/
theorem loadVolHtable_members {rd : Nat → Option Bytes} (hs : ∀ m < V.g.nbMembers, SsizeOk (ssize m))
    (hrd : ReadsMembers V ssize d rd)
    (hall : ∀ c < V.htableLen, (rd (V.conf.htableChunk c)).isSome = true) :
    ∃ vol, Shfs.loadVolHtable V.conf rd = .ok (.ok vol) ∧ Digests V vol.bt (V.diskEntry d) ∧
      ∀ i < V.conf.htableNbEntries, SameHentry (vol.hentry (vol.slot i)) (V.diskEntry d i) := by
  obtain ⟨vol, hvol, hconf, hchk, hload⟩ := Shfs.loadVolHtable_spec V.conf rd hall
  have hent : ∀ i < V.conf.htableNbEntries,
      SameHentry (tableEntry V.conf vol.htableChunkCache i) (V.diskEntry d i) := by
    intro i hi k hk
    have hc := V.chunkNo_lt hi
    have hend := V.entry_end i
    obtain ⟨b, hb⟩ := Option.isSome_iff_exists.1 (hall _ hc)
    have hlt : V.conf.htableChunk (shfsHtableChunkNo i V.conf.htableNbEntriesPerChunk) < V.volsize := by
      have hle := V.tablesEnd_le
      unfold Volume.tablesEnd at hle
      rw [V.htableChunk_eq hc]
      split at hle <;> omega
    obtain ⟨io, heap, hread⟩ := hrd _ hlt b hb
    unfold tableEntry
    rw [hchk]
    simp only [hb, Option.getD_some]
    apply shfsReadChunk_bytes hs hlt hread
    unfold sizeofHentry at hk
    unfold shfsHentrySize at hend
    omega
  refine ⟨vol, hvol, ⟨?_, ?_, ?_, fun i hi => ?_⟩, fun i hi => ?_⟩
  · rw [hload.sized.1, hconf]
  · rw [hload.sized.2.1, hconf]
  · rw [hload.sized.2.2, hconf]
    rfl
  · have hsame := hload.hash i hi
    rw [hconf] at hsame
    exact hsame.trans ((hent i hi).sameHash V.hlen_le)
  · obtain ⟨hchunk, hoff⟩ := hload.place i hi
    rw [hconf] at hchunk hoff
    unfold Vol.hentry
    rw [hchunk, hoff]
    exact hent i hi

/-- A table that keeps files agrees with them. -/
theorem Keeps.agrees {vol : Vol} (hk : Keeps V st (V.diskEntry d) d)
    (hs : ∀ m < V.g.nbMembers, SsizeOk (ssize m)) (hd : Digests V vol.bt (V.diskEntry d))
    (hent : ∀ i < V.conf.htableNbEntries, SameHentry (vol.hentry (vol.slot i)) (V.diskEntry d i)) :
    Agrees V ssize st d vol where
  found := fun h => hk.lookup_isSome hd
  read := by
    intro h f el hst hfound
    obtain ⟨i, hi, rfl, -, -, g, hg, hfile⟩ := hk.lookup_some hd hfound
    obtain rfl : g = f := Option.some.inj (hg.symm.trans hst)
    exact (hfile.congr (hent i hi)).reads hs

/-! ## Mounting -/

/-- The configuration is made from the chunk that was read. -/
theorem loadVolHconfChunk_ok {uenv : Shfs.MountEnv} {g : VolGeom} {conf : VolConf}
    (h : (Mount.loadVolHconfChunk uenv g).1 = .ok conf) :
    ∃ hdr, uenv.chk1 = some hdr ∧ Shfs.loadVolHconf g hdr = .ok conf := by
  unfold Mount.loadVolHconfChunk at h
  split at h
  · cases h
  simp only at h
  cases hchk1 : uenv.chk1 with
  | none =>
      rw [hchk1] at h
      cases h
  | some hdr =>
      rw [hchk1] at h
      cases hload : Shfs.loadVolHconf g hdr with
      | error e =>
          simp only [hload] at h
          cases h
      | ok conf' =>
          simp only [hload] at h
          obtain rfl := Except.ok.inj h
          exact ⟨hdr, rfl, hload⟩

/-- The table that a mount keeps is the one that was loaded. -/
theorem loadVolHtableChunks_ok {uenv : Shfs.MountEnv} {conf : VolConf} {vol : Vol} {log : Log}
    (h : Mount.loadVolHtableChunks uenv conf = .ok (.ok vol, log)) :
    Shfs.loadVolHtable conf uenv.chunk = .ok (.ok vol) := by
  unfold Mount.loadVolHtableChunks at h
  split at h
  · cases Except.ok.inj h
  simp only at h
  split at h
  · cases Except.ok.inj h
  split at h
  · cases Except.ok.inj h
  obtain ⟨r, hr, h⟩ := ok_of_bind h
  rw [hr]
  cases r with
  | error e => cases Except.ok.inj h
  | ok v =>
      obtain rfl : v = vol := Except.ok.inj (Prod.mk.inj (Except.ok.inj h)).1
      rfl

/-- What a mount that goes through has loaded. -/
theorem mountShfs_loaded {uenv : Shfs.MountEnv} {out : Mount.Mounted}
    (h : Mount.mountShfs uenv false = .ok out) (hm : out.shfsMounted = true) :
    ∃ info log hdr conf vol, loadVolCconf uenv = .ok (.ok info, log) ∧ uenv.chk1 = some hdr ∧
      Shfs.loadVolHconf info.geom hdr = .ok conf ∧ Shfs.loadVolHtable conf uenv.chunk = .ok (.ok vol) ∧
      out.vol = some vol := by
  unfold Mount.mountShfs at h
  split at h
  · obtain rfl := Except.ok.inj h
    cases hm
  rw [if_neg Bool.false_ne_true] at h
  obtain ⟨⟨r, log⟩, hcconf, h⟩ := ok_of_bind h
  cases r with
  | error e =>
      obtain rfl := Except.ok.inj h
      cases hm
  | ok info =>
      change Mount.mountVol uenv info log = .ok out at h
      unfold Mount.mountVol at h
      simp only at h
      split at h
      · obtain rfl := Except.ok.inj h
        cases hm
      cases hconf : (Mount.loadVolHconfChunk uenv info.geom).1 with
      | error e =>
          rw [hconf] at h
          obtain rfl := Except.ok.inj h
          cases hm
      | ok conf =>
          rw [hconf] at h
          obtain ⟨⟨table, tableLog⟩, htable, h⟩ := ok_of_bind h
          obtain ⟨hdr, hchk1, hload⟩ := loadVolHconfChunk_ok hconf
          cases table with
          | error e =>
              obtain rfl := Except.ok.inj h
              cases hm
          | ok vol =>
              refine ⟨info, log, hdr, conf, vol, hcconf, hchk1, hload, loadVolHtableChunks_ok htable, ?_⟩
              simp only at h
              split at h
              · obtain rfl := Except.ok.inj h
                cases hm
              split at h
              · obtain rfl := Except.ok.inj h
                cases hm
              · obtain rfl := Except.ok.inj h
                rfl

/-- The layout that the unikernel takes from the label is the one that `mkfs` was told. -/
theorem geom_of_label {uenv : Shfs.MountEnv} {g : VolGeom} {uuid : Nat → Uuid} {n : Nat} {u : Uuid}
    {info : Shfs.VolInfo} (hof : info.Of uenv { newHdrCommon g uuid n with memberUuid := u }) :
    info.geom = g := by
  have hmode := hof.stripemode
  have hstripe := hof.stripesize
  have hnb := hof.nbMembers
  have hle := g.nbMembers_le
  have hcode : stripemodeOf g.stripemode.code = some g.stripemode := by
    cases g.stripemode <;> rfl
  change stripemodeOf g.stripemode.code = some info.geom.stripemode at hmode
  change info.geom.stripesize = (UInt32.ofNat g.stripesize).toNat at hstripe
  change info.geom.nbMembers = (UInt8.ofNat g.nbMembers).toNat at hnb
  rw [hcode] at hmode
  rw [UInt32.toNat_ofNat', Nat.mod_eq_of_lt] at hstripe
  · rw [UInt8.toNat_ofNat', Nat.mod_eq_of_lt (by omega)] at hnb
    obtain ⟨gmode, gstripe, gnb, _, _, _⟩ := g
    generalize info.geom = g' at *
    obtain ⟨mode, stripe, nb, _, _, _⟩ := g'
    obtain rfl : gmode = mode := Option.some.inj hmode
    obtain rfl : stripe = gstripe := hstripe
    obtain rfl : nb = gnb := hnb
    rfl
  · have hs := (stripesize_bounds g).2
    omega

/-- The configuration that the unikernel makes from the chunk that `mkfs` wrote. -/
theorem loadVolHconf_hdr (V : Volume) : Shfs.loadVolHconf V.args.geom V.hdr = .ok V.conf := by
  unfold Shfs.loadVolHconf
  exact dif_neg V.args.conf.htableLen_ne

/-- What the sessions keep is what the unikernel reads. -/
theorem Keeps.readBack {uuid : Nat → Uuid} {n : Nat} (hk : Keeps V st (V.diskEntry d) d) :
    ReadBack V (newHdrCommon V.args.geom uuid n) st d where
  loads := by
    intro ssize rd hs hrd hall
    obtain ⟨vol, hvol, hd, hent⟩ := loadVolHtable_members hs hrd hall
    exact ⟨vol, hvol, hk.agrees hs hd hent⟩
  mounts := by
    intro ssize uenv out hs hatt hmount hmounted
    obtain ⟨info, log, hdr, conf, vol, hcconf, hchk1, hload, htable, hvol⟩ :=
      mountShfs_loaded hmount hmounted
    obtain ⟨label, hacc, hof⟩ := loadVolCconf_label hcconf
    obtain ⟨dev, -, hlabel⟩ := Option.bind_eq_some_iff.1 hacc.first
    obtain ⟨m, -, rfl⟩ := hatt.label dev label hlabel
    -- both the layout and the configuration are those of the tools
    obtain rfl := hatt.config hdr hchk1
    rw [geom_of_label hof, loadVolHconf_hdr] at hload
    obtain rfl := Except.ok.inj hload
    have hall : ∀ c < V.htableLen, (uenv.chunk (V.conf.htableChunk c)).isSome = true := by
      by_contra hno
      rw [Shfs.loadVolHtable_eio hno] at htable
      cases htable
    obtain ⟨vol', hvol', hd, hent⟩ := loadVolHtable_members hs hatt.chunk hall
    rw [hvol'] at htable
    obtain rfl := Except.ok.inj (Except.ok.inj htable)
    exact ⟨vol', hvol, hk.agrees hs hd hent⟩

/-- The label of a completed format. -/
theorem mkfs_label {a : MkfsArgs} {size : Nat → UInt64} {menv : MkfsEnv} {v : Mkfs}
    (h : mkfs a size menv = some v) : ∃ n, v.hdrCommon = newHdrCommon a.geom menv.uuid n := by
  simp only [mkfs] at h
  split at h
  · cases h
  split at h
  · cases h
  split at h
  · cases h
  split at h
  · cases h
  split at h
  · cases h
  split at h
  · obtain rfl := Option.some.inj h
    exact ⟨_, rfl⟩
  · cases h

end Read

/-! ## From the format to the reader -/

/-- A run keeps what writes to the chunks behind the label keep, by induction on its events. -/
theorem keeps_frame {V : Volume} {lib : MhashLib} {st : Store} {s t : Sys} {es : List Event}
    {R : Members → Members → Prop} (hR : Frame V.g (2 ≤ ·) R)
    (hrun : ((sessions V lib).restrict fun s e =>
      NoIoError V s e ∧ Succeeds V lib s e ∧ Registers V e).Run s es t) (hs : s.Keeps V st) :
    R s.disk t.disk := by
  induction hrun generalizing st with
  | nil _ => exact hR.refl _
  | cons h1 _ ih =>
      obtain ⟨h1, hio, hzero, hreg⟩ := Machine.restrict_step.1 h1
      exact hR.trans (step_frame hR hs.stored.ok h1) (ih (keeps_step hs hio hzero hreg h1))

/-- What the tools store is what the unikernel reads, whatever is added and removed in however many
sessions, as long as every container gets its place on the allocator list; and the label is still that of
the format. The history is one of `add-obj` and `rm-obj` that return 0, with complete transfers. What the
unikernel finds are exactly the digests of the history, and what it reads are their files. -/
theorem objects_read_back {a : MkfsArgs} {size : Nat → UInt64} {menv : MkfsEnv} {v : Mkfs}
    (h : mkfs a size menv = some v) {lib : MhashLib} {config : HdrConfig → Bytes}
    {common : HdrCommon → Bytes} {d₀ d : Members} {es : List Event}
    (hrun : ((sessions (Volume.ofMkfs h) lib).restrict fun s e =>
      NoIoError (Volume.ofMkfs h) s e ∧ Succeeds (Volume.ofMkfs h) lib s e ∧
        Registers (Volume.ofMkfs h) e).Run ⟨writeAll config common v.writes d₀, none⟩ es ⟨d, none⟩) :
    Labelled (Volume.ofMkfs h) config common v.hdrCommon d ∧
      ReadBack (Volume.ofMkfs h) v.hdrCommon (storeOf (Volume.ofMkfs h) lib es) d := by
  have hnew := keeps_new (formatted_ofMkfs h config common d₀)
  have hkeeps := keeps_from hrun hnew
  obtain ⟨n, hlabel⟩ := mkfs_label h
  constructor
  · have hframe := labelled_frame (Volume.ofMkfs h) config common v.hdrCommon
    exact keeps_frame hframe hrun hnew (labelled_ofMkfs h config common d₀)
  · rw [hlabel]
    exact (hkeeps.disk rfl).readBack

/-- A format of one file of 24576 bytes, with two entries, digests of one byte that are given by hand, and
two free chunks. -/
def twoChunks : Mkfs :=
  (mkfs manualVolume.args (fun _ => 24576) plainEnv).get (by decide)

theorem twoChunks_eq : mkfs manualVolume.args (fun _ => 24576) plainEnv = some twoChunks :=
  (Option.some_get _).symm

/-- The volume and the members behind it, which were empty before. -/
def twoVolume : Volume := Volume.ofMkfs twoChunks_eq

def formattedMembers : Members :=
  writeAll (fun _ => Bytes.zeros) (fun _ => Bytes.zeros) twoChunks.writes fun _ _ => 0

/-- `add-obj` with the digest that the digit stands for, of a file of one byte; `mem` tells whether the
container gets its place on the list. -/
def addByte (digit b : UInt8) (mem : Bool) : Event :=
  .token (.addObj { plainToken [97] with optstr2 := some [48, digit] }
    { byteFile with data := fun _ => b, regMem := mem })

/-- The chunks that a unikernel reads from the members without an error. -/
def readPlain (V : Volume) (d : Members) (c : Nat) : Option Bytes :=
  match shfsReadChunk V.g (fun _ => 512) d (fun _ => true) c Bytes.zeros with
  | .ok b => some b
  | .error _ => none

/-- A unikernel with one device, which holds a volume of one member. -/
def plainUnikernel (V : Volume) (hdr : HdrCommon) (d : Members) : Shfs.MountEnv where
  bdId := [0]
  openOk := fun _ => true
  info := fun _ => ⟨512, 48⟩
  label := fun _ => some { hdr with memberUuid := hdr.member 0 }
  reread := true
  malloc := fun _ => true
  chk1 := some V.hdr
  setup := fun _ => true
  chunk := readPlain V d

theorem plainUnikernel_attached (V : Volume) (hdr : HdrCommon) (d : Members) :
    Attached V hdr (fun _ => 512) d (plainUnikernel V hdr d) where
  label := by
    intro dev h hlabel
    exact ⟨0, V.args.nbDevs_pos, (Option.some.inj hlabel).symm⟩
  config := fun c hc => (Option.some.inj hc).symm
  chunk := by
    intro c _ b hb
    change readPlain V d c = some b at hb
    unfold readPlain at hb
    split at hb
    · rename_i b' hread
      obtain rfl := Option.some.inj hb
      exact ⟨_, _, hread⟩
    · cases hb

/-- The first byte of the file that it finds behind a digest. -/
def firstByte (V : Volume) (hdr : HdrCommon) (d : Members) (h : Hash512) : Option UInt8 :=
  match Mount.mountShfs (plainUnikernel V hdr d) false with
  | .ok ⟨_, true, _, some vol, _⟩ => (shfsBtableLookup vol.bt h).map fun el =>
      (readFile V (fun _ => 512) d (vol.hentry el) true (fun _ _ => true) (fun _ => Bytes.zeros)
        Bytes.zeros).2.buf 0
  | _ => none

/-- What it should find there. -/
theorem ReadBack.firstByte {V : Volume} {hdr : HdrCommon} {st : Store} {d : Members}
    (hrb : ReadBack V hdr st d) {h : Hash512} {f : StoredFile} {b : UInt8} (hst : st h = some f)
    (hpos : 0 < f.size) (hb : firstByte V hdr d h = some b) : b = f.data 0 := by
  have hs : ∀ m < V.g.nbMembers, SsizeOk 512 := fun _ _ => ⟨9, by decide, by decide, rfl⟩
  unfold Admin.firstByte at hb
  split at hb
  · rename_i vol _ hmount
    obtain ⟨vol', hvol, hagr⟩ := hrb.mounts _ _ _ hs (plainUnikernel_attached V hdr d) hmount rfl
    obtain rfl : vol = vol' := Option.some.inj hvol
    obtain ⟨el, hel, hread⟩ := Option.map_eq_some_iff.1 hb
    have hfile := hagr.read h f el hst hel
    rw [← hread]
    exact hfile.bytes _ _ _ _ (hfile.returns _ _ _ fun _ _ => rfl) 0 hpos
  · cases hb

/-- A file is added and removed, and another one is added in a second session. -/
def twoSessions : List Event :=
  [.mount plainMount, addByte 49 1 true, .token (.rmObj (plainToken [48, 49])), .umount plainUmount,
    .mount plainMount, addByte 50 2 true, .umount plainUmount]

theorem addByte_complete (digit : UInt8) (b : UInt8) (mem : Bool) : (addByte digit b mem).Complete :=
  fun _ => Transfers.all_complete

theorem twoSessions_complete : ∀ e ∈ twoSessions, e.Complete := by
  simp only [twoSessions, List.forall_mem_cons, addByte_complete, true_and]
  simp [Event.Complete, Event.TableComplete]

/-- The unikernel finds the second file only. -/
theorem objects_read_back_two : ∃ d, ((sessions twoVolume onesLib).restrict fun s e =>
      NoIoError twoVolume s e ∧ Succeeds twoVolume onesLib s e ∧ Registers twoVolume e).Run
      ⟨formattedMembers, none⟩ twoSessions ⟨d, none⟩ ∧
    ReadBack twoVolume twoChunks.hdrCommon (storeOf twoVolume onesLib twoSessions) d ∧
    (storeOf twoVolume onesLib twoSessions fun _ => 1).isNone = true ∧
    firstByte twoVolume twoChunks.hdrCommon d (fun _ => 2) = some 2 := by
  have hexec := @sessions_exec twoVolume onesLib (fun s e => NoIoError twoVolume s e ∧
      Succeeds twoVolume onesLib s e ∧ Registers twoVolume e) _ ⟨formattedMembers, none⟩ twoSessions
    (fun s => s.session.isNone && firstByte twoVolume twoChunks.hdrCommon s.disk (fun _ => 2) == some 2)
    (by decide +kernel) twoSessions_complete
  obtain ⟨⟨d, session⟩, hrun, hp⟩ := hexec
  obtain ⟨hnone, hbyte⟩ := Bool.and_eq_true_iff.1 hp
  obtain rfl : session = none := Option.isNone_iff_eq_none.1 hnone
  exact ⟨d, hrun, (objects_read_back twoChunks_eq hrun).2, by decide +kernel, beq_iff_eq.1 hbyte⟩

/-- The container of the first file is not put on the list, and the second file gets its chunk: the
unikernel reads it behind both digests. -/
theorem unregistered_object_overwritten : ∃ d, ((sessions twoVolume onesLib).restrict fun s e =>
      NoIoError twoVolume s e ∧ Succeeds twoVolume onesLib s e).Run ⟨formattedMembers, none⟩
      [.mount plainMount, addByte 49 1 false, addByte 50 2 true, .umount plainUmount] ⟨d, none⟩ ∧
    ¬ ReadBack twoVolume twoChunks.hdrCommon (storeOf twoVolume onesLib
      [.mount plainMount, addByte 49 1 false, addByte 50 2 true, .umount plainUmount]) d := by
  have hexec := @sessions_exec twoVolume onesLib (fun s e => NoIoError twoVolume s e ∧
      Succeeds twoVolume onesLib s e) _ ⟨formattedMembers, none⟩
    [.mount plainMount, addByte 49 1 false, addByte 50 2 true, .umount plainUmount]
    (fun s => s.session.isNone && firstByte twoVolume twoChunks.hdrCommon s.disk (fun _ => 1) == some 2)
    (by decide +kernel) (by
      simp only [List.forall_mem_cons, addByte_complete, true_and]
      simp [Event.Complete, Event.TableComplete])
  obtain ⟨⟨d, session⟩, hrun, hp⟩ := hexec
  obtain ⟨hnone, hbyte⟩ := Bool.and_eq_true_iff.1 hp
  obtain rfl : session = none := Option.isNone_iff_eq_none.1 hnone
  refine ⟨d, hrun, fun hrb => ?_⟩
  have hst : (storeOf twoVolume onesLib
      [.mount plainMount, addByte 49 1 false, addByte 50 2 true, .umount plainUmount] fun _ => 1).any
        (fun f => f.size == 1 && f.data 0 == 1) = true := by decide +kernel
  obtain ⟨f, hf, hdata⟩ := (Option.any_eq_true _ _).1 hst
  obtain ⟨hsize, hone⟩ := Bool.and_eq_true_iff.1 hdata
  have htwo : (2 : UInt8) = f.data 0 :=
    hrb.firstByte hf (by rw [beq_iff_eq.1 hsize]; decide) (beq_iff_eq.1 hbyte)
  rw [beq_iff_eq.1 hone] at htwo
  exact absurd htwo (by decide)

end Minipython.Tools.Admin
