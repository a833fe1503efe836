/-
# Minipython.Tools.Mkwebfs — images of a directory (mkwebfs)

The script lists the regular files of a directory and counts the chunks that they take, makes an image of
that size, formats it, and adds the files, one session each. An index file of a subdirectory is added
three times, also under the name of its directory with and without a slash.

The image has a chunk for the label, one for the configuration, the table, and the chunks of the files,
and nothing is left. A file without contents needs no chunk, but `actn_addfile` wants a chunk to begin it
at, so once the volume is full such a file is refused. `webfs_room` says that this is the only way to run
out of room.

The arithmetic of the script is that of `bash`, in 64 bits with a sign; an image of `2 ^ 63` bytes or more
has a size that is negative there. Below that `mkfs_image` says that the format succeeds, and how many
chunks are free behind its tables. From then on the used chunks are counted (`Filling`): a file moves the
end of what is used by its own chunks, so the next one has room as long as a file that is not empty is still
to come, itself or one behind it (`webfs_room_for`).

The runs are those of the script: one session for each file, in order, where any may fail on the way and
leave its chunks used. Digests are arbitrary; a full bucket is a failure like another.
-/
import Minipython.Tools.Filling
import Minipython.Tools.Format

namespace Minipython.Tools.Mkwebfs

open Minipython.Lib
open Minipython.Shfs
open Minipython.Tools.Admin

/-! ## The script -/

def csize : Int := 4096
def nbBkts : Int := 1024
def ePerBkt : Int := 16
def esize : Int := 256

/-- `$(( ))`: 64 bits with a sign. -/
def arith (x : Int) : Int := x.bmod (2 ^ 64)

/-- A regular file that `find` lists, below the directory. -/
structure WebFile where
  dirname : CString
  basename : CString
  size : Nat
  size_lt : size < 2 ^ 63

/-- `.`, `index.htm` and `index.html`. -/
def baseDir : CString := [46]
def indexHtm : CString := [105, 110, 100, 101, 120, 46, 104, 116, 109]
def indexHtml : CString := indexHtm ++ [108]

/-- The name without the leading `./`. -/
def WebFile.name (f : WebFile) : CString :=
  if f.dirname = baseDir then f.basename else f.dirname ++ [47] ++ f.basename

def isindex (f : WebFile) : Bool := f.basename == indexHtm || f.basename == indexHtml

/-- The lines of the arrays `NAME` and `SIZE`. -/
structure WebObject where
  name : CString
  size : Nat

/-- What the script collects: an object for each line of its arrays, and `TCHUNKS`. -/
structure Collected where
  objects : List WebObject
  tchunks : Int

/-- `CHUNKS[$I]`. -/
def chunks (size : Nat) : Int := (arith (size + csize - 1)).tdiv csize

/-- The body of the loop over the files. -/
def collect (s : Collected) (f : WebFile) : Collected :=
  let objects := s.objects ++ [⟨f.name, f.size⟩]
  let tchunks := arith (s.tchunks + chunks f.size)
  if isindex f && f.dirname != baseDir then
    { objects := objects ++ [⟨f.dirname, f.size⟩, ⟨f.dirname ++ [47], f.size⟩]
      tchunks := arith (tchunks + 2 * chunks f.size) }
  else { objects := objects, tchunks := tchunks }

/-- The loop. -/
def collectAll (files : List WebFile) : Collected := files.foldl collect ⟨[], 0⟩

/-- `SHFSIMG_SIZE`. -/
def shfsimgSize (tchunks : Int) : Int :=
  arith ((tchunks + 3 + (nbBkts * ePerBkt * esize).tdiv csize) * csize)

/-- `mksparse`: `dd` refuses to seek to a negative offset. -/
def mksparse (size : Int) : Option UInt64 := if 0 ≤ size then some (UInt64.ofNat size.toNat) else none

/-- The arguments of `shfs_mkfs`. -/
def webArgs : MkfsArgs where
  nbDevs := 1
  stripesize := 4096
  combinedStriping := false
  hashfunc := .manual
  hashlen := 20
  bucketCount := 1024
  entriesPerBucket := 16
  nbDevs_pos := Nat.one_pos
  nbDevs_le := VolGeom.single.nbMembers_le
  stripesize_ok := VolGeom.single.stripesize_ok
  hashlen_pos := by decide
  hashlen_le := by decide
  hashlen_ok := rfl
  bucketCount_pos := by decide
  entriesPerBucket_pos := chunkArgs.entriesPerBucket_pos
  entries_le := by decide

/-! ## The size of the image -/

/-- The sizes of the objects in order. -/
def Collected.sizes (s : Collected) : List Nat := s.objects.map WebObject.size

/-- The chunks of all objects. -/
def Collected.total (s : Collected) : Nat := (s.sizes.map fun n => divRoundUp n 4096).sum

theorem arith_eq {x : Int} (h0 : 0 ≤ x) (h : x < 2 ^ 63) : arith x = x :=
  Int.bmod_eq_of_le (by omega) (by omega)

/-- The script counts chunks as the tools do. -/
theorem chunks_eq {n : Nat} (hn : n < 2 ^ 63) (h : divRoundUp n 4096 < 2 ^ 51) :
    chunks n = divRoundUp n 4096 := by
  have hdiv : divRoundUp n 4096 = (n + 4096 - 1) / 4096 :=
    divRoundUp_eq (by simp only [u64Size]; omega) (by decide)
  rw [hdiv] at h ⊢
  have hsum : arith (n + csize - 1) = ((n + 4096 - 1 : Nat) : Int) := by
    rw [arith_eq]
    · unfold csize
      omega
    · unfold csize
      omega
    · unfold csize
      omega
  unfold chunks
  rw [hsum]
  exact (Int.ofNat_tdiv _ _).symm

section Collect

variable {s : Collected} {f : WebFile}

/-- The chunks that a file adds to the total. -/
theorem total_collect (s : Collected) (f : WebFile) : (collect s f).total =
    s.total + (if isindex f && f.dirname != baseDir then 3 else 1) * divRoundUp f.size 4096 := by
  unfold collect Collected.total Collected.sizes
  split
  · simp only [List.map_append, List.map_cons, List.map_nil, List.sum_append, List.sum_cons, List.sum_nil]
    omega
  · simp only [List.map_append, List.map_cons, List.map_nil, List.sum_append, List.sum_cons, List.sum_nil]
    omega

/-- `TCHUNKS` is the total, as long as that is small enough. -/
theorem tchunks_collect (hs : s.tchunks = s.total) (h : (collect s f).total < 2 ^ 51) :
    (collect s f).tchunks = (collect s f).total := by
  rw [total_collect] at h ⊢
  have hone : divRoundUp f.size 4096 < 2 ^ 51 := by
    split at h <;> omega
  have hchunks := chunks_eq f.size_lt hone
  have hsum : arith (s.tchunks + chunks f.size) = (s.total + divRoundUp f.size 4096 : Nat) := by
    rw [hs, hchunks, arith_eq]
    · omega
    · omega
    · split at h <;> omega
  unfold collect
  split
  · rename_i hindex
    rw [if_pos hindex] at h
    show arith (arith (s.tchunks + chunks f.size) + 2 * chunks f.size) = _
    rw [hsum, hchunks, arith_eq]
    · omega
    · omega
    · omega
  · show arith (s.tchunks + chunks f.size) = _
    rw [hsum, Nat.one_mul]

theorem total_mono (files : List WebFile) (s : Collected) : s.total ≤ (files.foldl collect s).total := by
  induction files generalizing s with
  | nil => exact Nat.le_refl _
  | cons f files ih =>
      apply Nat.le_trans _ (ih (collect s f))
      rw [total_collect]
      exact Nat.le_add_right _ _

theorem tchunks_foldl {files : List WebFile} (hs : s.tchunks = s.total)
    (h : (files.foldl collect s).total < 2 ^ 51) :
    (files.foldl collect s).tchunks = (files.foldl collect s).total := by
  induction files generalizing s with
  | nil => exact hs
  | cons f files ih =>
      apply ih _ h
      exact tchunks_collect hs (Nat.lt_of_le_of_lt (total_mono files (collect s f)) h)

end Collect

section Image

variable {files : List WebFile} {size : UInt64}

/-- The chunks of the image: those of the objects, the two of the label, 1024 of the table, and one that
`mkfs` does not count. -/
def imageChunks (files : List WebFile) : Nat := (collectAll files).total + 1027

/-- An image of fewer than `2 ^ 63` bytes is as large as it should be. -/
theorem mksparse_eq (h : imageChunks files < 2 ^ 51) : ∃ size,
    mksparse (shfsimgSize (collectAll files).tchunks) = some size ∧
      size.toNat = imageChunks files * 4096 := by
  unfold imageChunks at h ⊢
  have hlt : ((collectAll files).total + 1027) * 4096 < 2 ^ 64 :=
    Nat.lt_of_lt_of_le (Nat.mul_lt_mul_of_pos_right h (by decide)) (by decide)
  have htotal : (collectAll files).tchunks = (collectAll files).total := tchunks_foldl rfl (by
    change (collectAll files).total < _
    omega)
  have htable : (nbBkts * ePerBkt * esize).tdiv csize = 1024 := by decide
  have hsize : shfsimgSize (collectAll files).tchunks =
      (((collectAll files).total + 1027) * 4096 : Nat) := by
    unfold shfsimgSize
    rw [htotal, htable]
    unfold csize
    rw [arith_eq]
    · omega
    · omega
    · omega
  refine ⟨UInt64.ofNat (((collectAll files).total + 1027) * 4096), ?_, ?_⟩
  · rw [hsize]
    exact if_pos (Int.natCast_nonneg _)
  · rw [UInt64.toNat_ofNat']
    exact Nat.mod_eq_of_lt hlt

/-- The last chunk of the image is not part of the volume. -/
theorem volSize_image (hsize : size.toNat = imageChunks files * 4096) :
    volSize webArgs.geom (memberDsize (fun _ => size.toNat) webArgs.nbDevs) =
      (collectAll files).total + 1026 := by
  have hlt := size.toNat_lt
  have hmember : memberDsize (fun _ => size.toNat) webArgs.nbDevs = size.toNat := rfl
  unfold imageChunks at hsize
  rw [hmember, volSize_eq]
  show usable webArgs.geom size.toNat / 4096 * 1 = _
  have husable : usable webArgs.geom size.toNat = ((collectAll files).total + 1026) * 4096 := by
    unfold usable wrap64
    show (size.toNat + u64Size - 4096) % u64Size = _
    simp only [u64Size]
    omega
  rw [husable, Nat.mul_one, Nat.mul_div_cancel _ (by decide)]

theorem metadataSize_web : metadataSize webArgs.geom webArgs.hdrConfig = 1026 := by decide +kernel

/-- The offset of a stripe of the image. -/
theorem stripe_addressed {n strp : Nat} (hn : n < 2 ^ 51) (hs : strp < n) :
    0 ≤ offT (wrap64 (strp / 1 * 4096)) := by
  have hlt : strp * 4096 < 2 ^ 63 := by omega
  rw [Nat.div_one, wrap64_of_lt (Nat.lt_trans hlt (by decide))]
  unfold offT
  rw [if_pos hlt]
  exact Int.natCast_nonneg _

/-- No transfer of the first chunks goes to a negative offset. -/
theorem range_addressed {n start len ptr : Nat} (hn : n < 2 ^ 51) (hlen : start + len ≤ n)
    {body : Nat → Nat → IoRequest}
    (hbody : ∀ strp p, (body strp p).start = offT (wrap64 (strp / 1 * 4096)))
    {r : IoRequest} (hr : r ∈ forStripes 4096 body len start ptr) : 0 ≤ r.start := by
  rw [forStripes_range] at hr
  obtain ⟨i, hi, rfl⟩ := List.mem_map.1 hr
  have hlt := List.mem_range.1 hi
  rw [hbody]
  exact stripe_addressed hn (by omega)

/-- A format of the image writes to no negative offset. -/
theorem writes_addressed (h : imageChunks files < 2 ^ 51) {hdr : HdrCommon} {fullerase : Bool}
    {w : MkfsWrite} (hw : w ∈ mkfsWrites webArgs.geom hdr webArgs.hdrConfig
      ((collectAll files).total + 1026) fullerase) : 0 ≤ w.req.start := by
  unfold imageChunks at h
  have hfit : ∀ start len, start + len ≤ (collectAll files).total + 1026 →
      webArgs.geom.striping.Fits start len := by
    intro start len hle
    show ((start + len - 1) / 1 + 1) * 4096 ≤ u64Size
    rw [Nat.div_one]
    simp only [u64Size]
    omega
  have hrange : ∀ start len, start + len ≤ (collectAll files).total + 1026 →
      strpRange webArgs.geom.striping start len = (start, start + len * 1) := fun start len hle =>
    Striping.Fits.strpRange _ (hfit start len hle)
  have herase : ∀ start len, start + len ≤ (collectAll files).total + 1026 →
      ∀ r ∈ syncEraseRequests webArgs.geom.striping start len, 0 ≤ r.start := by
    intro start len hle r hr
    unfold syncEraseRequests at hr
    rw [hrange start len hle] at hr
    simp only [Nat.mul_one, Nat.add_sub_cancel_left] at hr
    exact range_addressed h (by omega) (fun _ _ => rfl) hr
  unfold mkfsWrites at hw
  simp only [List.mem_append, List.mem_map] at hw
  obtain ((⟨m, -, rfl⟩ | ⟨r, hr, rfl⟩) | ⟨r, hr, rfl⟩) | ⟨m, -, rfl⟩ := hw
  · exact Int.le_refl 0
  · split at hr
    · rw [wrap64_gap (by omega) (by simp only [u64Size]; omega)] at hr
      exact herase _ _ (by omega) r hr
    · exact herase 2 1024 (by omega) r hr
  · unfold syncIoRequests at hr
    rw [hrange 1 1 (by omega)] at hr
    simp only [Nat.mul_one, Nat.add_sub_cancel_left] at hr
    exact range_addressed h (by omega) (fun _ _ => rfl) hr
  · exact Int.le_refl 0

/-- The image can be formatted. -/
theorem mkfs_image (h : imageChunks files < 2 ^ 51) (hsize : size.toNat = imageChunks files * 4096)
    {env : MkfsEnv} (henv : env.Ok) : ∃ v, mkfs webArgs (fun _ => size) env = some v := by
  obtain ⟨v, hv, -⟩ := mkfs_ok henv (volSize_image hsize)
    (by rw [metadataSize_web]; exact Nat.le_add_left _ _) fun w hw => writes_addressed h hw
  exact ⟨v, hv⟩

/-- The volume has the chunks of the objects behind its tables. -/
theorem volsize_image (hsize : size.toNat = imageChunks files * 4096) {env : MkfsEnv} {v : Mkfs}
    (hv : mkfs webArgs (fun _ => size) env = some v) :
    (Volume.ofMkfs hv).tablesEnd + (Volume.ofMkfs hv).chunksOf (collectAll files).sizes =
      (Volume.ofMkfs hv).volsize := by
  have hvol : (Volume.ofMkfs hv).volsize = (collectAll files).total + 1026 := by
    show v.hdrCommon.volSize.toNat = _
    rw [(mkfs_spec hv).1]
    exact volSize_image hsize
  have htables : (Volume.ofMkfs hv).tablesEnd = 1026 := by
    have hmeta := metadataSize_conf webArgs
    rw [metadataSize_web] at hmeta
    show 2 + 1 * webArgs.conf.htableLen = _
    omega
  rw [hvol, htables, Nat.add_comm]
  rfl

end Image

/-! ## Room for every file -/

/-- Whatever the system does, `actn_addfile` finds a container for each file that meets the condition,
when files of these sizes are added in order, some of them in vain. -/
def RoomInOrder (V : Volume) (lib : MhashLib) (d : Members) (sizes : List Nat)
    (cond : Nat → List Nat → Prop) : Prop :=
  ∀ (es : List Event) (s : Admin.Sys) (v : Admin.VolInfo) (c : Bool) (front : List Nat) (n : Nat)
    (back : List Nat),
    (sessions V lib).Run ⟨d, none⟩ es s → (∀ e ∈ es, OnlyAdds e) → s.session = some (v, c) →
      sizes = front ++ n :: back → (addedSizes es).Sublist front → cond n back →
        (findContainer V v.al (divRoundUp n V.chunksize)).isSome

/-- The image that the script makes can be formatted, and every file that meets the condition finds room
in it. -/
def ImageFits (files : List WebFile) (cond : Nat → List Nat → Prop) : Prop :=
  ∃ size, mksparse (shfsimgSize (collectAll files).tchunks) = some size ∧
    (∀ env : MkfsEnv, env.Ok → (mkfs webArgs (fun _ => size) env).isSome) ∧
    ∀ (env : MkfsEnv) (v : Mkfs) (hv : mkfs webArgs (fun _ => size) env = some v)
      (config : HdrConfig → Bytes) (common : HdrCommon → Bytes) (d : Members) (lib : MhashLib),
      RoomInOrder (Volume.ofMkfs hv) lib (writeAll config common v.writes d) (collectAll files).sizes cond

/-- The sizes are those of files. -/
theorem mem_sizes {files : List WebFile} : ∀ n ∈ (collectAll files).sizes, n < 2 ^ 63 := by
  have hall : ∀ (files : List WebFile) (s : Collected), (∀ n ∈ s.sizes, n < 2 ^ 63) →
      ∀ n ∈ (files.foldl collect s).sizes, n < 2 ^ 63 := by
    intro files
    induction files with
    | nil => exact fun s hs => hs
    | cons f files ih =>
        intro s hs
        apply ih
        intro n hn
        have hsize := f.size_lt
        unfold collect Collected.sizes at hn
        split at hn
        · simp only [List.map_append, List.mem_append, List.map_cons, List.map_nil, List.mem_cons,
            List.not_mem_nil, or_false] at hn
          obtain (hn | rfl) | rfl | rfl := hn
          · exact hs n hn
          · exact hsize
          · exact hsize
          · exact hsize
        · simp only [List.map_append, List.mem_append, List.map_cons, List.map_nil, List.mem_cons,
            List.not_mem_nil, or_false] at hn
          obtain hn | rfl := hn
          · exact hs n hn
          · exact hsize
  exact hall files ⟨[], 0⟩ fun n hn => by cases hn

/-- In a new volume with just the chunks of all files, a file finds room if it is not empty or a file
behind it in the list is not. -/
theorem roomInOrder {V : Volume} {lib : MhashLib} {d : Members} {sizes : List Nat} (hd : Formatted V d)
    (hvol : V.tablesEnd + V.chunksOf sizes = V.volsize) (hsizes : ∀ n ∈ sizes, n < 2 ^ 63) :
    RoomInOrder V lib d sizes fun n back => ∃ m ∈ n :: back, 0 < m := by
  rintro es s v c front n back hrun honly hs rfl hsub ⟨m, hm, hlt⟩
  have hle := V.chunksOf_sublist hsub
  have hsum : V.chunksOf (front ++ n :: back) =
      V.chunksOf front + (divRoundUp n V.chunksize + V.chunksOf back) := V.chunksOf_append _ _
  have hpos : 0 < divRoundUp m V.chunksize := by
    have hsize := hsizes m (List.mem_append_right front hm)
    obtain ⟨hlo, hhi⟩ := V.chunksize_bounds
    rw [divRoundUp_eq (by simp only [u64Size]; omega) (by omega)]
    exact Nat.div_pos (by omega) (by omega)
  rw [hsum] at hvol
  apply room_of_adds hd hrun honly hs
  · omega
  · obtain rfl | hback := List.mem_cons.1 hm
    · exact .inl hpos
    · -- a later file keeps a chunk free
      have hmem : divRoundUp m V.chunksize ≤ V.chunksOf back :=
        V.chunksOf_sublist (List.singleton_sublist.2 hback)
      right
      omega

/-- The image of a list of files. -/
theorem webfs_room_for {files : List WebFile} (h : imageChunks files < 2 ^ 51) :
    ImageFits files fun n back => ∃ m ∈ n :: back, 0 < m := by
  obtain ⟨size, hmk, hsize⟩ := mksparse_eq h
  refine ⟨size, hmk, fun env henv => ?_, fun env v hv config common d lib => ?_⟩
  · obtain ⟨v, hv⟩ := mkfs_image h hsize henv
    rw [hv]
    rfl
  · exact roomInOrder (formatted_ofMkfs hv config common d) (volsize_image hsize hv) mem_sizes

/-- Every file of a list finds room in its image, if the last one is not empty and the image has fewer than
`2 ^ 63` bytes. Room is a container that `actn_addfile` finds for the file, in any run of sessions that adds
the files in order, whichever of them fail. -/
theorem webfs_room {files : List WebFile} (h : imageChunks files < 2 ^ 51)
    (hlast : ∀ n ∈ (collectAll files).sizes.getLast?, 0 < n) : ImageFits files fun _ _ => True := by
  obtain ⟨size, hmk, hformat, hroom⟩ := webfs_room_for h
  refine ⟨size, hmk, hformat, fun env v hv config common d lib => ?_⟩
  intro es s w c front n back hrun honly hs hlist hsub _
  refine hroom env v hv config common d lib es s w c front n back hrun honly hs hlist hsub ?_
  have hback : (collectAll files).sizes.getLast? = some ((n :: back).getLast (List.cons_ne_nil n back)) := by
    rw [hlist, List.getLast?_append, List.getLast?_eq_getLast_of_ne_nil (List.cons_ne_nil n back)]
    rfl
  exact ⟨_, List.getLast_mem (List.cons_ne_nil n back), hlast _ hback⟩

/-! ## Images without room -/

/-- The new image can be mounted. -/
theorem exists_mounted {files : List WebFile} (h : imageChunks files < 2 ^ 51) {size : UInt64}
    (hmk : mksparse (shfsimgSize (collectAll files).tchunks) = some size) :
    ∃ v, ∃ hv : mkfs webArgs (fun _ => size) plainEnv = some v,
      ∀ d, ∃ w, Admin.mountShfs (Volume.ofMkfs hv) plainMount d = .ok w := by
  obtain ⟨size', hmk', hsize⟩ := mksparse_eq h
  obtain rfl := Option.some.inj (hmk.symm.trans hmk')
  have henv : plainEnv.Ok :=
    ⟨rfl, rfl, rfl, fun _ => rfl, rfl, fun _ _ hr => decide_eq_true hr⟩
  obtain ⟨v, hv⟩ := mkfs_image h hsize henv
  have hmount : plainMount.Ok :=
    ⟨rfl, fun _ => rfl, fun _ _ => rfl, plainMount_complete, rfl, fun _ => rfl⟩
  refine ⟨v, hv, fun d => mountShfs_ok hmount ?_⟩
  intro c hc r hr
  have hlen : (Volume.ofMkfs hv).htableLen = 1024 := by
    have hmeta := metadataSize_conf webArgs
    rw [metadataSize_web] at hmeta
    show webArgs.conf.htableLen = _
    omega
  rw [(Volume.ofMkfs hv).htableChunk_eq hc] at hr
  have hfit : webArgs.geom.striping.Fits (2 + c) 1 := by
    show ((2 + c + 1 - 1) / 1 + 1) * 4096 ≤ u64Size
    rw [Nat.div_one]
    simp only [u64Size]
    omega
  change r ∈ syncIoRequests webArgs.geom.striping (2 + c) 1 at hr
  unfold syncIoRequests at hr
  rw [Striping.Fits.strpRange _ hfit] at hr
  change r ∈ forStripes 4096 _ (2 + c + 1 * 1 - (2 + c)) (2 + c) 0 at hr
  rw [Nat.mul_one, Nat.add_sub_cancel_left] at hr
  exact @range_addressed 1026 (2 + c) 1 0 (by decide) (by omega) _ (fun _ _ => rfl) r hr

/-- There is no room in the image of files that are all empty. -/
theorem webfs_no_room {files : List WebFile} {n : Nat} {back : List Nat}
    (hlist : (collectAll files).sizes = n :: back) (htotal : (collectAll files).total = 0) :
    ¬ ImageFits files fun _ _ => True := by
  rintro ⟨size, hmk, -, hroom⟩
  have h : imageChunks files < 2 ^ 51 := by
    unfold imageChunks
    rw [htotal]
    decide +kernel
  obtain ⟨v, hv, hmount⟩ := exists_mounted h hmk
  obtain ⟨size', hmk', hsize⟩ := mksparse_eq h
  obtain rfl := Option.some.inj (hmk.symm.trans hmk')
  -- the label is encoded somehow, and the members held zeros
  set zeros : Members := fun _ _ => 0
  set config : HdrConfig → Bytes := fun _ => Bytes.zeros
  set common : HdrCommon → Bytes := fun _ => Bytes.zeros
  have hd := formatted_ofMkfs hv config common zeros
  obtain ⟨w, hw⟩ := hmount (writeAll config common v.writes zeros)
  have hstep := @step_mount _ onesLib _ _ _ plainMount_complete hw
  have hfound := hroom plainEnv v hv config common zeros onesLib _ _ w false [] n back (.single hstep)
    (fun e he => by rw [List.mem_singleton.1 he]; trivial) rfl hlist (List.Sublist.refl []) trivial
  have hfull : (Volume.ofMkfs hv).volsize = (Volume.ofMkfs hv).tablesEnd := by
    rw [← volsize_image hsize hv]
    show _ + (collectAll files).total = _
    rw [htotal, Nat.add_zero]
  have hlen := @divRoundUp_le n _ (Volume.ofMkfs hv).chunksize_bounds.1
  rw [full_no_container hd plainMount_complete hw hfull hlen] at hfound
  cases hfound

/-- A file `a` of the base directory. -/
def fileA (size : Nat) (h : size < 2 ^ 63) : WebFile := ⟨baseDir, [97], size, h⟩

/-- A file `b` of the base directory. -/
def fileB (size : Nat) (h : size < 2 ^ 63) : WebFile := ⟨baseDir, [98], size, h⟩

/-- The image of an empty file and one of two chunks behind it has room for both. -/
theorem webfs_room_two : ImageFits [fileA 0 (by decide), fileB 5000 (by decide)] fun _ _ => True :=
  webfs_room (by decide) (by
    intro n hn
    obtain rfl := Option.some.inj hn
    decide)

/-- The image of an empty file has no room for it. -/
theorem webfs_empty_no_room : ¬ ImageFits [fileA 0 (by decide)] fun _ _ => True :=
  webfs_no_room rfl rfl

end Minipython.Tools.Mkwebfs
