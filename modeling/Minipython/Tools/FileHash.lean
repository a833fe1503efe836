/-
# Minipython.Tools.FileHash — what actn_addfile hashes (shfs_admin.c)

The hash loop asks for whole chunks and, in its last turn, for `fsize % chunksize` bytes. That is the
rest of the file unless the file ends at the end of a chunk: then it is nothing, and the last chunk of
the file is not hashed (`fileDigest_covers_iff`). The copy loop next to it counts what is left instead.

The tool reads its file twice, once for the digest and once for the copy; the theorem is about the first.
The premises are that the loop is run through: the hash function is one that `mhash` computes, and no
`lseek`, no `read` and no abort signal ends it. `mhash` is a parameter, a function of the bytes that it was
given.

Whatever the last turn reads is hashed into the digest that is stored, under the type of hash of the volume.
All files of one whole chunk have so the digest of the empty file (`fileDigest_whole_chunk`).
-/
import Minipython.Tools.Guard

namespace Minipython.Tools.Admin

open Minipython.Lib
open Minipython.Shfs

namespace AddEnv

variable (env : AddEnv)

/-- The bytes of the file. -/
def contents : List UInt8 := (List.range env.stSize).map env.data

/-- What the hash loop asks for in the turn `c`. -/
def hashRlen (chunksize csize c : Nat) : Nat :=
  if c = csize - 1 then env.stSize % chunksize else chunksize

/-- Every read of the hash loop returns as many bytes as it was asked for. -/
def FullHashReads (chunksize csize : Nat) : Prop :=
  ∀ c < csize, ∃ k, env.hashRead c = some k ∧ env.hashRlen chunksize csize c ≤ k

/-- A read in full within the file puts its bytes into the buffer. -/
theorem read_full {env : AddEnv} {pos rlen k : Nat} {buf : Bytes} (hk : rlen ≤ k)
    (hin : pos + rlen ≤ env.stSize) :
    (env.read pos rlen k buf).2 = pos + rlen ∧
      (List.range rlen).map (env.read pos rlen k buf).1 =
        (List.range rlen).map (Bytes.window env.data pos) := by
  have hgot : min k (min rlen (env.stSize - pos)) = rlen := by omega
  unfold read
  rw [hgot]
  refine ⟨rfl, List.map_congr_left fun i hi => ?_⟩
  have hblit := @Bytes.blit_inside buf (Bytes.window env.data pos) 0 rlen i (List.mem_range.1 hi)
  rwa [Nat.zero_add] at hblit

end AddEnv

/-- A prefix and what follows it. -/
theorem range_map_append (f : Bytes) (pos n : Nat) :
    (List.range pos).map f ++ (List.range n).map (Bytes.window f pos) =
      (List.range (pos + n)).map f := by
  rw [List.range_add, List.map_append, List.map_map]
  rfl

/-- The number of bytes that the turns from `c` on hash, with `n` turns left. -/
def hashedFrom (env : AddEnv) (chunksize : Nat) : Nat → Nat
  | 0 => 0
  | n + 1 => n * chunksize + env.stSize % chunksize

/-- The hash loop, by induction on the turns left: it hashes the file from where it stands on, up to the
rest that the last turn asks for. -/
theorem hashFile_spec {chunksize csize : Nat} {env : AddEnv} (hfull : env.FullHashReads chunksize csize)
    (hcancel : ∀ c < csize, env.hashCancel c = false) {n c : Nat} (hn : c + n = csize)
    (hin : c * chunksize + hashedFrom env chunksize n ≤ env.stSize) (buf : Bytes) :
    ∃ buf', hashFile chunksize csize env n c (c * chunksize) buf
        ((List.range (c * chunksize)).map env.data) =
      .ok ((List.range (c * chunksize + hashedFrom env chunksize n)).map env.data, buf') := by
  induction n generalizing c buf with
  | zero => exact ⟨buf, rfl⟩
  | succ n ih =>
      obtain ⟨k, hread, hk⟩ := hfull c (by omega)
      rw [hashFile, hread]
      simp only [hcancel c (by omega), Bool.false_eq_true, if_false]
      cases n with
      | zero =>
          have hlast : c = csize - 1 := by omega
          simp only [AddEnv.hashRlen, if_pos hlast] at hk
          simp only [hashedFrom, Nat.zero_mul, Nat.zero_add] at hin ⊢
          obtain ⟨-, hbytes⟩ := @AddEnv.read_full env _ _ k buf hk hin
          rw [if_pos hlast, hbytes, range_map_append, hashFile]
          exact ⟨_, rfl⟩
      | succ n =>
          have hmore : c ≠ csize - 1 := by omega
          have hmul : (c + 1) * chunksize = c * chunksize + chunksize := Nat.succ_mul c chunksize
          have hsum : c * chunksize + hashedFrom env chunksize (n + 2) =
              (c + 1) * chunksize + hashedFrom env chunksize (n + 1) := by
            simp only [hashedFrom, Nat.succ_mul]
            omega
          simp only [AddEnv.hashRlen, if_neg hmore] at hk
          rw [hsum] at hin
          obtain ⟨hpos, hbytes⟩ := @AddEnv.read_full env (c * chunksize) _ k buf hk (by omega)
          rw [if_neg hmore, hbytes, range_map_append, hpos, ← hmul, hsum]
          exact ih (by omega) hin _

/-- A file that ends within a chunk takes one chunk more than it fills. -/
theorem chunks_of_rest {n cs : Nat} (hcs : 0 < cs) (h : n % cs ≠ 0) :
    (n + cs - 1) / cs = n / cs + 1 := by
  have hdiv := Nat.div_add_mod' n cs
  have hmod := Nat.mod_lt n hcs
  rw [Nat.div_eq_iff hcs, Nat.succ_mul]
  omega

/-- A file that ends with a whole chunk takes the chunks that it fills. -/
theorem chunks_of_whole {n cs : Nat} (hcs : 0 < cs) (h : n % cs = 0) : (n + cs - 1) / cs = n / cs := by
  have hdiv := Nat.div_add_mod' n cs
  rw [Nat.div_eq_iff hcs]
  omega

theorem csize_eq (V : Volume) (env : AddEnv) :
    env.csize V = (env.stSize + V.chunksize - 1) / V.chunksize := by
  have hsize := env.stSize_lt
  have hmax := V.chunksize_bounds.2
  refine divRoundUp_eq ?_ V.chunksize_pos
  simp only [u64Size]
  omega

/-- The loop hashes the whole file unless the file ends with a whole chunk. -/
theorem hashedFrom_csize (V : Volume) (env : AddEnv) :
    hashedFrom env V.chunksize (env.csize V) =
      if env.stSize = 0 ∨ env.stSize % V.chunksize ≠ 0 then env.stSize
      else env.stSize - V.chunksize := by
  have hpos := V.chunksize_pos
  have hdiv := Nat.div_add_mod env.stSize V.chunksize
  rw [csize_eq]
  by_cases hrest : env.stSize % V.chunksize = 0
  · rw [chunks_of_whole hpos hrest]
    cases hq : env.stSize / V.chunksize with
    | zero =>
        rw [hq] at hdiv
        rw [if_pos (.inl (by omega)), hashedFrom]
        omega
    | succ q =>
        rw [hq, Nat.mul_comm, Nat.succ_mul] at hdiv
        rw [if_neg (by rintro (h | h) <;> omega), hashedFrom]
        omega
  · rw [chunks_of_rest hpos hrest, if_pos (.inr hrest), hashedFrom, Nat.mul_comm]
    exact hdiv

/-- The digest that is stored is that of what the hash loop gives to `mhash`, and this is the file exactly
if the file does not end with a whole chunk. The premises say that the hash loop is run through, without an
error and with reads that return what they were asked for. -/
theorem fileDigest_covers_iff (V : Volume) (env : AddEnv) (tmpChk : Bytes) {type : HashId}
    (hfunc : V.hdr.hfunc ≠ Shfunc.code .manual)
    (htype : shfsMhashType V.hdr.hfunc V.hdr.hlen = some type) (hinit : env.mhashInit = true)
    (hseek : env.hashSeek = true) (hfull : env.FullHashReads V.chunksize (env.csize V))
    (hcancel : ∀ c < env.csize V, env.hashCancel c = false) :
    ∃ input buf, (∀ lib j, fileDigest V lib j env (env.csize V) tmpChk =
        .ok (.ok (lib type input, buf)) ∧
          ∀ e cchk now, SameHash V.hlen
            (fileHentry e V.hlen (lib type input) cchk env.stSize now j) (lib type input)) ∧
      (input = env.contents ↔ env.stSize = 0 ∨ env.stSize % V.chunksize ≠ 0) := by
  have hpos := V.chunksize_pos
  have htotal := hashedFrom_csize V env
  have hle : hashedFrom env V.chunksize (env.csize V) ≤ env.stSize := by
    rw [htotal]
    split <;> omega
  obtain ⟨buf, hloop⟩ := hashFile_spec hfull hcancel (Nat.zero_add _) (by omega) tmpChk
  simp only [Nat.zero_mul, Nat.zero_add, List.range_zero, List.map_nil] at hloop
  refine ⟨(List.range (hashedFrom env V.chunksize (env.csize V))).map env.data, buf, fun lib j => ?_, ?_⟩
  · refine ⟨?_, fun e cchk now => fileHentry_hash V.hlen_le⟩
    unfold fileDigest
    rw [if_pos hfunc, htype, hinit, hseek]
    simp only [Bool.not_true, Bool.false_eq_true, if_false, hloop]
    rfl
  · rw [htotal]
    constructor
    · intro heq
      have hlen := congrArg List.length heq
      simp only [AddEnv.contents, List.length_map, List.length_range] at hlen
      by_contra hwhole
      rw [if_neg hwhole] at hlen
      omega
    · intro hcover
      rw [if_pos hcover, AddEnv.contents]

/-- A file of one chunk and a rest. -/
theorem fileDigest_covers_iff_rest :
    ∃ input buf, (∀ lib j, fileDigest tinyVolume lib j (plainFile 5000 (by decide))
        ((plainFile 5000 (by decide)).csize tinyVolume) Bytes.zeros =
        .ok (.ok (lib .sha256 input, buf)) ∧
          ∀ e cchk now, SameHash tinyVolume.hlen (fileHentry e tinyVolume.hlen (lib .sha256 input) cchk
            (plainFile 5000 (by decide)).stSize now j) (lib .sha256 input)) ∧
      (input = (plainFile 5000 (by decide)).contents ↔ 5000 = 0 ∨ 5000 % tinyVolume.chunksize ≠ 0) :=
  fileDigest_covers_iff tinyVolume (plainFile 5000 (by decide)) Bytes.zeros (by decide) rfl rfl rfl
    (fun c _ => ⟨_, rfl, by simp only [AddEnv.hashRlen]; split <;> decide⟩) fun _ _ => rfl

/-- Of a file of one whole chunk nothing is hashed. -/
theorem fileDigest_whole_chunk :
    (∀ lib j, ∃ buf, fileDigest tinyVolume lib j (plainFile 4096 (by decide))
        ((plainFile 4096 (by decide)).csize tinyVolume) Bytes.zeros = .ok (.ok (lib .sha256 [], buf))) ∧
      (plainFile 4096 (by decide)).contents ≠ [] := by
  refine ⟨fun lib j => ⟨_, rfl⟩, fun h => ?_⟩
  have hlen := congrArg List.length h
  simp only [AddEnv.contents, List.length_map, List.length_range, List.length_nil] at hlen
  cases hlen

end Minipython.Tools.Admin
