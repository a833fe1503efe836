/-
# Minipython.Tools.Cat — printing a file (shfs_admin.c, actn_catfile)

`actn_catfile` walks through the chunks of a container as the readers of the unikernel do, with one turn of its
loop for each chunk (`catLoop`), but three things make it print something else than they read.

It begins at the first chunk with the offset as it stands. An offset behind the end of that chunk makes
`chunksize - off` wrap, and what is printed then is the memory behind the I/O buffer. The readers of the
unikernel divide the offset by the chunk size first.

It reads through `sync_io_chunk`, which asserts that the chunk is not chunk 0. The on-disk format can name
chunk 0, and the unikernel reads it; the tool aborts. (All other callers of `sync_io_chunk` pass a chunk of the
tables, which begin at 2, or one of a container, which lie behind the tables.)

It does not look at how many bytes `write` has taken. What is left of a turn is not written again, so a pipe that
takes less than it is given loses the rest.

`ReadAlike` says that both programs give the same bytes, for standard output taking given numbers of bytes turn by
turn, whatever the memory and the transfers of the members are, as long as these are complete. It holds exactly if
none of the three comes into play, or the file is empty: `catfile_alike_iff`.
-/
import Minipython.Shfs.FioRead
import Minipython.Tools.Guard
import Minipython.Tools.Mounting

namespace Minipython.Tools.Admin

open Minipython.Lib
open Minipython.Shfs

/-- What `actn_catfile` meets. -/
structure CatEnv where
  /-- the memory from the I/O buffer on, if it is allocated -/
  buf : Option Bytes
  /-- the transfers for the chunk that a turn reads -/
  io : Nat → Transfers
  /-- what `write` to the standard output returns in a turn: an error, or how many bytes it has taken -/
  write : Nat → Option Nat

/-- How `actn_catfile` ends. -/
inductive CatEnd where
  | returns (ret : Int)
  /-- `assert(start != 0)` of `sync_io_chunk` -/
  | aborts
  deriving DecidableEq, Repr

/-- `while (left)` of `actn_catfile`, for at most `fuel` turns, with what was written so far. -/
def catLoop (V : Volume) (env : CatEnv) (d : Members) :
    Nat → Nat → Nat → Nat → Nat → Bytes → List UInt8 → CatEnd × List UInt8
  | 0, _, _, _, _, _, out => (.returns 0, out)
  | fuel + 1, i, c, off, left, buf, out =>
      if left = 0 then (.returns 0, out)
      else if c = 0 then (.aborts, out)
      else
        match syncReadChunk V.g d c 1 buf (env.io i) with
        | none => (.returns (-1), out)
        | some buf =>
            let rlen := min (wrap64 (V.chunksize + u64Size - off)) left
            match env.write i with
            | none => (.returns (-1), out)
            | some n =>
                catLoop V env d fuel (i + 1) (wrap64 (c + 1)) 0 (left - rlen) buf
                  (out ++ (List.range (min n rlen)).map (Bytes.window buf off))

/-- `actn_catfile`: how it ends and the bytes on the standard output. -/
def actnCatfile (V : Volume) (j : Token) (env : CatEnv) (s : Session) : CatEnd × List UInt8 :=
  match env.buf with
  | none => (.returns (-1), [])
  | some buf =>
      match hashParse j.path Bytes.zeros V.hlen with
      | none => (.returns (-1), [])
      | some h =>
          match shfsBtableLookup s.vol.bt h with
          | none => (.returns (-1), [])
          | some el =>
              let hentry := s.vol.hentry el
              if hentry.isLink then (.returns 0, [])
              else catLoop V env s.disk (hentry.len + 1) 0 hentry.chunk hentry.offset hentry.len buf []

/-- `shfs_read_chunk` of the unikernel on the same members, whose sectors have the sizes `ssize`. -/
def shfsReadChunk (g : Striping) (ssize : Nat → Nat) (d : Members) (io : IoRequest → Bool) (c : Nat)
    (chkBuf : Bytes) : ChunkRead :=
  match readStripes d (.whole io)
      ((aioRequests g (fun m => sfactorOf g (ssize m)) c 1).map (SectorRequest.bytes ssize)) chkBuf with
  | none => .error .eio
  | some b => .ok b

/-! ## A file on the members -/

/-- The byte `k` of a file. -/
def fileByte (V : Volume) (d : Members) (e : Hentry) (k : Nat) : UInt8 :=
  chunkAt V.g d (e.chunk + (e.offset + k) / V.chunksize) ((e.offset + k) % V.chunksize)

/-- The container of the entry lies in the volume, and `off_t` holds the offsets of its chunks. -/
def ContainerIn (V : Volume) (e : Hentry) : Prop :=
  ∀ i, i * V.chunksize < e.offset + e.len → e.chunk + i < V.volsize ∧ Addressed V.g (e.chunk + i)

/-- Two lists over ranges that follow each other. -/
theorem map_range_append {α : Type} {f g h : Nat → α} {m n : Nat} (hf : ∀ k < m, f k = h k)
    (hg : ∀ k < n, g k = h (m + k)) :
    (List.range m).map f ++ (List.range n).map g = (List.range (m + n)).map h := by
  rw [List.range_add, List.map_append, List.map_map]
  congr 1
  · exact List.map_congr_left fun k hk => hf k (List.mem_range.1 hk)
  · exact List.map_congr_left fun k hk => hg k (List.mem_range.1 hk)

/-- How many bytes of a file of `left` bytes from the offset `off` of a container on lie in its chunk `j`. -/
def turnLen (cs off left j : Nat) : Nat := min ((j + 1) * cs) (off + left) - max (j * cs) off

section Turns

variable {cs off left j : Nat}

theorem turnLen_zero : turnLen cs off left 0 = min (cs - off) left := by
  unfold turnLen
  simp only [Nat.zero_add, Nat.one_mul, Nat.zero_mul]
  omega

theorem turnLen_empty : turnLen cs off 0 j = 0 := by
  unfold turnLen
  omega

/-- Behind the first chunk the file goes on at the start of the next. -/
theorem turnLen_succ (hoff : off ≤ cs) :
    turnLen cs off left (j + 1) = turnLen cs 0 (left - min (cs - off) left) j := by
  unfold turnLen
  rw [Nat.zero_add, Nat.max_zero]
  have h1 : (j + 1 + 1) * cs = (j + 1) * cs + cs := Nat.succ_mul _ _
  have h2 : (j + 1) * cs = j * cs + cs := Nat.succ_mul _ _
  omega

end Turns

section Loop

variable {V : Volume} {env : CatEnv} {d : Members} {fuel i c off left : Nat} {buf : Bytes}
  {out : List UInt8}

/-- What is written stays in front, and it is no more than what was left of the file. -/
theorem catLoop_grows : ∃ more, (catLoop V env d fuel i c off left buf out).2 = out ++ more ∧
    more.length ≤ left := by
  induction fuel generalizing i c off left buf out with
  | zero => exact ⟨[], (List.append_nil out).symm, Nat.zero_le _⟩
  | succ fuel ih =>
      have hnone : ∃ more, out = out ++ more ∧ more.length ≤ left :=
        ⟨[], (List.append_nil out).symm, Nat.zero_le _⟩
      rw [catLoop]
      split
      · exact hnone
      split
      · exact hnone
      split
      · exact hnone
      simp only
      split
      · exact hnone
      · obtain ⟨more, hmore, hlen⟩ := @ih (i + 1) (wrap64 (c + 1)) 0 _ _ _
        rw [hmore, List.append_assoc]
        refine ⟨_, rfl, ?_⟩
        rw [List.length_append, List.length_map, List.length_range]
        omega

/-- When the loop is through, and the standard output has taken what it was given, the file is written from the
offset on. With an offset of a whole chunk the first turn prints nothing. -/
theorem catLoop_out (hoff : off ≤ V.chunksize) (hfuel : left < fuel ∨ off < V.chunksize ∧ left ≤ fuel)
    (hc : 0 < c) (hin : ∀ j, j * V.chunksize < off + left → c + j < V.volsize) (hio : ∀ i, (env.io i).Complete)
    (hwrite : ∀ j n, env.write (i + j) = some n → turnLen V.chunksize off left j ≤ n)
    (hret : (catLoop V env d fuel i c off left buf out).1 ≠ .returns (-1)) :
    (catLoop V env d fuel i c off left buf out).2 = out ++ (List.range left).map fun k =>
      chunkAt V.g d (c + (off + k) / V.chunksize) ((off + k) % V.chunksize) := by
  have hcs := V.chunksize_pos
  induction fuel generalizing i c off left buf out with
  | zero =>
      obtain rfl : left = 0 := by omega
      exact (List.append_nil out).symm
  | succ fuel ih =>
      by_cases hleft : left = 0
      · subst hleft
        rw [catLoop, if_pos rfl]
        exact (List.append_nil out).symm
      · have hlt : c < V.volsize := hin 0 (by omega)
        have hvol := V.volsize_lt
        have hcs64 := V.chunksize_lt
        rw [catLoop, if_neg hleft, if_neg hc.ne'] at hret ⊢
        cases hread : syncReadChunk V.g d c 1 buf (env.io i) with
        | none =>
            rw [hread] at hret
            exact absurd rfl hret
        | some b =>
            rw [hread] at hret
            simp only [wrap64_gap hoff hcs64, wrap64_of_lt (show c + 1 < u64Size by omega)] at hret ⊢
            cases htook : env.write i with
            | none =>
                rw [htook] at hret
                exact absurd rfl hret
            | some n =>
                rw [htook] at hret
                simp only at hret ⊢
                -- the turn is printed as a whole
                have hturn := hwrite 0 n htook
                rw [turnLen_zero] at hturn
                rw [Nat.min_eq_right hturn] at hret ⊢
                have hrest : ∀ j, j * V.chunksize < 0 + (left - min (V.chunksize - off) left) →
                    c + 1 + j < V.volsize := by
                  intro j hj
                  rw [Nat.add_assoc, Nat.add_comm 1 j]
                  apply hin (j + 1)
                  rw [Nat.succ_mul]
                  omega
                have hwrite' : ∀ j n, env.write (i + 1 + j) = some n →
                    turnLen V.chunksize 0 (left - min (V.chunksize - off) left) j ≤ n := by
                  intro j n hn
                  rw [← turnLen_succ hoff]
                  refine hwrite (j + 1) n ?_
                  rw [← hn, Nat.add_assoc, Nat.add_comm 1 j]
                rw [ih (Nat.zero_le _) (.inr ⟨hcs, by omega⟩) (show 0 < c + 1 from Nat.succ_pos c) hrest hwrite' hret,
                  List.append_assoc]
                congr 1
                have hsum : left = min (V.chunksize - off) left + (left - min (V.chunksize - off) left) := by
                  omega
                conv_rhs => rw [hsum]
                apply map_range_append
                · intro k hk
                  have hlt' : off + k < V.chunksize := by omega
                  have hlen : off + k < V.g.chunkLen := by
                    rw [V.chunkLen_eq]
                    exact hlt'
                  rw [Nat.div_eq_of_lt hlt', Nat.mod_eq_of_lt hlt']
                  exact readChunk_spec (V.fits c hlt) (hio i) hread hlen
                · intro k hk
                  -- there is a next turn, so this one has gone to the end of its chunk
                  have hpos : off + (min (V.chunksize - off) left + k) = V.chunksize + k := by omega
                  rw [hpos, Nat.zero_add, Nat.add_div_left _ hcs, Nat.add_mod_left, Nat.add_assoc,
                    Nat.add_comm 1]

/-- Without I/O errors the loop goes through. -/
theorem catLoop_ret (hio : ∀ i r, (env.io i r).isSome = true) (hwrite : ∀ i, (env.write i).isSome = true)
    (hoff : off ≤ V.chunksize) (hc : 0 < c)
    (hin : ∀ j, j * V.chunksize < off + left → c + j < V.volsize ∧ Addressed V.g (c + j)) :
    (catLoop V env d fuel i c off left buf out).1 = .returns 0 := by
  have hcs := V.chunksize_pos
  induction fuel generalizing i c off left buf out with
  | zero => rfl
  | succ fuel ih =>
      rw [catLoop]
      by_cases hleft : left = 0
      · rw [if_pos hleft]
      · obtain ⟨hlt, haddr⟩ := hin 0 (by omega)
        have hvol := V.volsize_lt
        have hcs64 := V.chunksize_lt
        obtain ⟨b, hb⟩ := @readStripes_ok d _ _ (hio i) haddr buf
        have hread : syncReadChunk V.g d c 1 buf (env.io i) = some b := hb
        obtain ⟨n, hn⟩ := Option.isSome_iff_exists.1 (hwrite i)
        rw [if_neg hleft, if_neg hc.ne', hread]
        simp only [wrap64_gap hoff hcs64, wrap64_of_lt (show c + 1 < u64Size by omega), hn]
        apply ih (Nat.zero_le _) (show 0 < c + 1 from Nat.succ_pos c)
        intro j hj
        rw [Nat.add_assoc, Nat.add_comm 1 j]
        apply hin (j + 1)
        rw [Nat.succ_mul]
        omega

/-- If all of the file is on the standard output, each turn was taken as a whole. -/
theorem catLoop_full (hoff : off ≤ V.chunksize) (hc : 0 < c)
    (hin : ∀ j, j * V.chunksize < off + left → c + j < V.volsize)
    (hret : (catLoop V env d fuel i c off left buf out).1 = .returns 0)
    (hfuel : left < fuel ∨ off < V.chunksize ∧ left ≤ fuel) (hwrite : ∀ i, (env.write i).isSome = true)
    (hlen : (catLoop V env d fuel i c off left buf out).2.length = out.length + left) (j : Nat) :
    turnLen V.chunksize off left j ≤ (env.write (i + j)).getD 0 := by
  have hcs := V.chunksize_pos
  induction fuel generalizing i c off left buf out j with
  | zero =>
      obtain rfl : left = 0 := by omega
      exact turnLen_empty.trans_le (Nat.zero_le _)
  | succ fuel ih =>
      by_cases hleft : left = 0
      · subst hleft
        exact turnLen_empty.trans_le (Nat.zero_le _)
      · have hlt : c < V.volsize := hin 0 (by omega)
        have hvol := V.volsize_lt
        have hcs64 := V.chunksize_lt
        obtain ⟨n, hn⟩ := Option.isSome_iff_exists.1 (hwrite i)
        rw [catLoop, if_neg hleft, if_neg hc.ne'] at hret hlen
        cases hread : syncReadChunk V.g d c 1 buf (env.io i) with
        | none =>
            rw [hread] at hret
            cases hret
        | some b =>
            rw [hread] at hret hlen
            simp only [wrap64_gap hoff hcs64, wrap64_of_lt (show c + 1 < u64Size by omega), hn] at hret hlen
            obtain ⟨more, hmore, hle⟩ := @catLoop_grows V env d fuel (i + 1) (c + 1) 0
              (left - min (V.chunksize - off) left) b
              (out ++ (List.range (min n (min (V.chunksize - off) left))).map (Bytes.window b off))
            have hparts := hlen
            rw [hmore, List.length_append, List.length_append, List.length_map, List.length_range] at hparts
            have hturn : min (V.chunksize - off) left ≤ n := by omega
            cases j with
            | zero =>
                rw [turnLen_zero, Nat.add_zero, hn]
                exact hturn
            | succ j =>
                have hrest : ∀ j, j * V.chunksize < 0 + (left - min (V.chunksize - off) left) →
                    c + 1 + j < V.volsize := by
                  intro j hj
                  rw [Nat.add_assoc, Nat.add_comm 1 j]
                  apply hin (j + 1)
                  rw [Nat.succ_mul]
                  omega
                have hnext := ih (Nat.zero_le _) (show 0 < c + 1 from Nat.succ_pos c) hrest hret (.inr ⟨hcs, by omega⟩) (by
                  rw [hmore, List.length_append, List.length_append, List.length_map, List.length_range]
                  omega) j
                rw [turnLen_succ hoff, Nat.add_comm j, ← Nat.add_assoc]
                exact hnext

end Loop

/-! ## The reader of the unikernel -/

section Fio

variable {V : Volume} {ssize : Nat → Nat} {d : Members} {e : Hentry} {io : Nat → IoRequest → Bool}
  {chkBuf : Nat → Bytes} {buf : Bytes}

/-- Both programs read a chunk with the same transfers. -/
theorem shfsReadChunk_eq (hs : ∀ m < V.g.nbMembers, SsizeOk (ssize m)) (io : IoRequest → Bool) (c : Nat)
    (chkBuf : Bytes) : shfsReadChunk V.g ssize d io c chkBuf =
      match syncReadChunk V.g d c 1 chkBuf (.whole io) with
      | none => .error .eio
      | some b => .ok b := by
  unfold shfsReadChunk syncReadChunk
  rw [aioRequests_bytes V.g hs]

/-- `shfs_fio_read` of a whole file as a loop that begins at its first chunk. -/
theorem fioRead_eq (hlink : e.isLink = false) (hin : ContainerIn V e) (hpos : 0 < e.len)
    (read : Nat → Nat → ChunkRead) : shfsFioRead V.conf e true read 0 e.len buf =
      fioLoop V.chunksize read e.len 0 (e.chunk + e.offset / V.chunksize) (e.offset % V.chunksize) 0
        e.len ⟨buf, []⟩ := by
  have hcs := V.chunksize_pos
  have hoff : e.offset < u64Size := Bytes.le_lt e 72 8
  have hfirst := (hin (e.offset / V.chunksize) (by
    have := Nat.div_mul_le_self e.offset V.chunksize
    omega)).1
  have hvol := V.volsize_lt
  have haddr : shfsVolchkFoff V.chunksize e 0 = e.chunk + e.offset / V.chunksize := by
    rw [shfsVolchkFoff, Nat.add_zero, wrap64_of_lt hoff, wrap64_of_lt (by omega), Nat.add_comm]
  have hbyte : shfsVolchkoffFoff V.chunksize e 0 = e.offset % V.chunksize := by
    rw [shfsVolchkoffFoff, Nat.add_zero, wrap64_of_lt hoff]
  unfold shfsFioRead
  show fioReader V.chunksize e true read 0 e.len buf = _
  rw [fioReader_passes hlink e.len_lt e.len_lt (.inl (by omega)), if_pos rfl, haddr, hbyte]

/-- The chunk that holds byte `foff` of a container lies `foff / chunksize` chunks behind its first. -/
theorem chunk_in_range {V : Volume} {e : Hentry} {j : Nat}
    (hj : j * V.chunksize < e.offset % V.chunksize + e.len) :
    (e.offset / V.chunksize + j) * V.chunksize < e.offset + e.len := by
  have hdiv := Nat.div_add_mod' e.offset V.chunksize
  rw [Nat.add_mul]
  omega

/-- A chunk of the volume that the unikernel reads. -/
theorem shfsReadChunk_bytes (hs : ∀ m < V.g.nbMembers, SsizeOk (ssize m)) {io : IoRequest → Bool}
    {c : Nat} {chkBuf chk : Bytes} (hc : c < V.volsize)
    (h : shfsReadChunk V.g ssize d io c chkBuf = .ok chk) :
    ∀ k < V.chunksize, chk k = chunkAt V.g d c k := by
  intro k hk
  rw [← V.chunkLen_eq] at hk
  rw [shfsReadChunk_eq hs] at h
  cases hsync : syncReadChunk V.g d c 1 chkBuf (.whole io) with
  | none =>
      rw [hsync] at h
      cases h
  | some b =>
      rw [hsync] at h
      obtain rfl := Except.ok.inj h
      exact readChunk_spec (V.fits c hc) (Transfers.whole_complete io) hsync hk

/-- The chunks of a container that hold its file. -/
theorem ContainerIn.chunk (hin : ContainerIn V e) {j : Nat}
    (hj : j * V.chunksize < e.offset % V.chunksize + e.len) :
    wrap64 (e.chunk + e.offset / V.chunksize + j) = e.chunk + e.offset / V.chunksize + j ∧
      e.chunk + e.offset / V.chunksize + j < V.volsize ∧
      Addressed V.g (e.chunk + e.offset / V.chunksize + j) := by
  obtain ⟨hlt, haddr⟩ := hin _ (chunk_in_range hj)
  rw [← Nat.add_assoc] at hlt haddr
  exact ⟨wrap64_of_lt (lt_trans hlt V.volsize_lt), hlt, haddr⟩

/-- What the reader stores is the file. -/
theorem fioRead_bytes (hs : ∀ m < V.g.nbMembers, SsizeOk (ssize m)) (hlink : e.isLink = false)
    (hin : ContainerIn V e) (hret : (shfsFioRead V.conf e true
      (fun i c => shfsReadChunk V.g ssize d (io i) c (chkBuf i)) 0 e.len buf).1 = 0) :
    ∀ k < e.len, (shfsFioRead V.conf e true
      (fun i c => shfsReadChunk V.g ssize d (io i) c (chkBuf i)) 0 e.len buf).2.buf k =
        fileByte V d e k := by
  intro k hk
  have hmod := Nat.mod_lt e.offset V.chunksize_pos
  have hpos : 0 < e.len := by omega
  have hfirst := (hin.chunk (j := 0) (by omega)).2.1
  have hvol := V.volsize_lt
  rw [fioRead_eq hlink hin hpos] at hret ⊢
  have hread : ∀ j chk, j * V.chunksize < e.offset % V.chunksize + e.len →
      shfsReadChunk V.g ssize d (io (0 + j)) (wrap64 (e.chunk + e.offset / V.chunksize + j))
        (chkBuf (0 + j)) = .ok chk →
      ∀ k < V.chunksize, chk k = chunkAt V.g d (wrap64 (e.chunk + e.offset / V.chunksize + j)) k := by
    intro j chk hj hread
    obtain ⟨hwrap, hlt, -⟩ := hin.chunk hj
    rw [hwrap] at hread ⊢
    exact shfsReadChunk_bytes hs hlt hread
  have hbuf := (fioLoop_buf hread hmod V.chunksize_lt (by omega) (Nat.le_refl _) hret).1 k hk
  have hlast : (e.offset % V.chunksize + k) / V.chunksize * V.chunksize <
      e.offset % V.chunksize + e.len := by
    have := Nat.div_mul_le_self (e.offset % V.chunksize + k) V.chunksize
    omega
  have hsum : e.offset + k = V.chunksize * (e.offset / V.chunksize) + (e.offset % V.chunksize + k) := by
    have := Nat.div_add_mod e.offset V.chunksize
    omega
  rw [Nat.zero_add, (hin.chunk hlast).1] at hbuf
  rw [hbuf, fileByte, hsum, Nat.mul_add_div V.chunksize_pos, Nat.mul_add_mod, Nat.add_assoc]

/-- Without I/O errors the reader goes through. -/
theorem fioRead_ret (hs : ∀ m < V.g.nbMembers, SsizeOk (ssize m)) (hlink : e.isLink = false)
    (hin : ContainerIn V e) (hpos : 0 < e.len) (hio : ∀ i r, io i r = true) :
    (shfsFioRead V.conf e true
      (fun i c => shfsReadChunk V.g ssize d (io i) c (chkBuf i)) 0 e.len buf).1 = 0 := by
  have hmod := Nat.mod_lt e.offset V.chunksize_pos
  have hfirst := (hin.chunk (j := 0) (by omega)).2.1
  have hvol := V.volsize_lt
  rw [fioRead_eq hlink hin hpos]
  refine fioLoop_ret (fun j hj => ?_) hmod V.chunksize_lt (by omega)
  obtain ⟨hwrap, -, haddr⟩ := hin.chunk hj
  have hall : ∀ r, (Transfers.whole (io (0 + j)) r).isSome = true := by
    intro r
    unfold Transfers.whole
    rw [if_pos (hio (0 + j) r)]
    rfl
  obtain ⟨b, hb⟩ := @readStripes_ok d _ _ hall haddr (chkBuf (0 + j))
  have hread : syncReadChunk V.g d (e.chunk + e.offset / V.chunksize + j) 1 (chkBuf (0 + j))
      (.whole (io (0 + j))) = some b := hb
  refine ⟨b, ?_⟩
  simp only [shfsReadChunk_eq hs]
  rw [hwrap, hread]

end Fio

/-! ## Both programs -/

/-- Both programs give the same bytes, where the standard output takes `write i` bytes in the turn `i`: whatever
the memory and the transfers of the members are, as long as these are complete, if no transfer fails for either
program. -/
def ReadAlike (V : Volume) (ssize : Nat → Nat) (j : Token) (s : Session) (e : Hentry) (write : Nat → Nat) : Prop :=
  ∀ (heap : Bytes) (io : Nat → Transfers) (fioIo : Nat → IoRequest → Bool) (chkBuf : Nat → Bytes) (buf : Bytes),
    (∀ i, (io i).Complete) →
    (actnCatfile V j ⟨some heap, io, fun i => some (write i)⟩ s).1 ≠ .returns (-1) →
    (shfsFioRead V.conf e true
      (fun i c => shfsReadChunk V.g ssize s.disk (fioIo i) c (chkBuf i)) 0 e.len buf).1 = 0 →
    (actnCatfile V j ⟨some heap, io, fun i => some (write i)⟩ s).2 =
      (List.range e.len).map (shfsFioRead V.conf e true
        (fun i c => shfsReadChunk V.g ssize s.disk (fioIo i) c (chkBuf i)) 0 e.len buf).2.buf

/-- The tool can read the entry: its first chunk is not chunk 0, its file begins in that chunk, at most at its end,
and the standard output takes what each turn gives it. -/
structure Printable (V : Volume) (e : Hentry) (write : Nat → Nat) : Prop where
  chunk : e.chunk ≠ 0
  offset : e.offset ≤ V.chunksize
  taken : ∀ i, turnLen V.chunksize e.offset e.len i ≤ write i

section Alike

variable {V : Volume} {ssize : Nat → Nat} {j : Token} {s : Session} {h : Hash512} {el : HtableEl}

/-- `actn_catfile` of an entry that is found. -/
theorem actnCatfile_eq (hparse : hashParse j.path Bytes.zeros V.hlen = some h)
    (hfound : shfsBtableLookup s.vol.bt h = some el) (hlink : (s.vol.hentry el).isLink = false)
    (heap : Bytes) (io : Nat → Transfers) (write : Nat → Option Nat) :
    actnCatfile V j ⟨some heap, io, write⟩ s =
      catLoop V ⟨some heap, io, write⟩ s.disk ((s.vol.hentry el).len + 1) 0 (s.vol.hentry el).chunk
        (s.vol.hentry el).offset (s.vol.hentry el).len heap [] := by
  unfold actnCatfile
  simp only [hparse, hfound, hlink, Bool.false_eq_true, if_false]

/-- The tool aborts at chunk 0. -/
theorem catLoop_abort {env : CatEnv} {d : Members} {heap : Bytes} {fuel i off left : Nat} {out : List UInt8}
    (hlen : left ≠ 0) : catLoop V env d (fuel + 1) i 0 off left heap out = (.aborts, out) := by
  rw [catLoop, if_neg hlen, if_pos rfl]

/-- With an offset behind the first chunk the loop goes through, and the first byte that the tools print is one
behind their buffer. -/
theorem catLoop_behind {env : CatEnv} {d : Members} {heap : Bytes} {c off left : Nat}
    (hin : ∀ i, i * V.chunksize < off + left → c + i < V.volsize ∧ Addressed V.g (c + i)) (hc : 0 < c)
    (hoff : V.chunksize < off) (hoff64 : off < u64Size) (hlen : 0 < left)
    (hio : ∀ i, (env.io i).Complete ∧ ∀ r, (env.io i r).isSome = true)
    (hwrite : ∀ i, (env.write i).isSome = true) :
    (catLoop V env d (left + 1) 0 c off left heap []).1 = .returns 0 ∧
      ((catLoop V env d (left + 1) 0 c off left heap []).2.length = left →
        (catLoop V env d (left + 1) 0 c off left heap []).2.head? = some (heap off)) := by
  have hcs := V.chunksize_pos
  have hvol := V.volsize_lt
  obtain ⟨hlt, haddr⟩ := hin 0 (by omega)
  obtain ⟨b, hb⟩ := @readStripes_ok d _ _ (hio 0).2 haddr heap
  have hread : syncReadChunk V.g d c 1 heap (env.io 0) = some b := hb
  obtain ⟨n, hn⟩ := Option.isSome_iff_exists.1 (hwrite 0)
  -- what is left of the chunk wraps around to almost the whole of 64 bits
  obtain ⟨gap, hwrap, hgap⟩ : ∃ gap, wrap64 (V.chunksize + u64Size - off) = gap ∧ 0 < gap :=
    ⟨_, wrap64_of_lt (by omega), by omega⟩
  have hnext : wrap64 (c + 1) = c + 1 := wrap64_of_lt (by omega)
  have hleft : left ≠ 0 := by omega
  rw [catLoop, if_neg hleft, if_neg hc.ne', hread]
  simp only [hwrap, hnext, hn, List.nil_append]
  constructor
  · apply catLoop_ret (fun i => (hio i).2) hwrite (Nat.zero_le _) (show 0 < c + 1 from Nat.succ_pos c)
    intro i hi
    rw [Nat.add_assoc, Nat.add_comm 1 i]
    apply hin (i + 1)
    rw [Nat.succ_mul]
    omega
  · obtain ⟨more, hmore, hle⟩ := @catLoop_grows V env d left 1 (c + 1) 0
      (left - min gap left) b
      ((List.range (min n (min gap left))).map (Bytes.window b off))
    have hbuf : V.g.chunkLen ≤ off := by
      rw [V.chunkLen_eq]
      exact hoff.le
    have hbehind : b off = heap off := readChunk_behind (V.fits c hlt) (hio 0).1 hread hbuf
    intro hall
    rw [hmore, List.length_append, List.length_map, List.length_range] at hall
    have hpos : min n (min gap left) ≠ 0 := by omega
    rw [hmore, List.head?_append, List.head?_map, List.head?_range, if_neg hpos, ← hbehind]
    rfl

/-- `actn_catfile` of an entry when no transfer fails and the memory at the I/O buffer holds `x` everywhere. -/
def catFilled (V : Volume) (d : Members) (e : Hentry) (write : Nat → Nat) (x : UInt8) : CatEnd × List UInt8 :=
  catLoop V ⟨some fun _ => x, fun _ => .all, fun i => some (write i)⟩ d (e.len + 1) 0 e.chunk e.offset e.len
    (fun _ => x) []

section Filled

variable {d : Members} {e : Hentry} {write : Nat → Nat}

theorem catFilled_length {x : UInt8} (hrun : (catFilled V d e write x).1 ≠ .returns (-1) →
      (catFilled V d e write x).2 = (List.range e.len).map (fileByte V d e))
    (hret : (catFilled V d e write x).1 ≠ .returns (-1)) : (catFilled V d e write x).2.length = e.len := by
  rw [hrun hret, List.length_map, List.length_range]

/-- A tool that aborts prints nothing. -/
theorem catFilled_chunk (hpos : 0 < e.len) {x : UInt8} (hrun : (catFilled V d e write x).1 ≠ .returns (-1) →
      (catFilled V d e write x).2 = (List.range e.len).map (fileByte V d e)) : e.chunk ≠ 0 := by
  intro hzero
  have habort : catFilled V d e write x = (.aborts, []) := by
    unfold catFilled
    rw [hzero, catLoop_abort hpos.ne']
  have hlen := catFilled_length hrun (by rw [habort]; decide)
  rw [habort] at hlen
  exact hpos.ne hlen

/-- With an offset behind the first chunk the first byte printed is the one behind the buffer, which is not the
first byte of the file whatever it is. -/
theorem catFilled_offset (hin : ContainerIn V e) (hpos : 0 < e.len) (hchunk : e.chunk ≠ 0)
    (hrun : ∀ x, (catFilled V d e write x).1 ≠ .returns (-1) →
      (catFilled V d e write x).2 = (List.range e.len).map (fileByte V d e)) : e.offset ≤ V.chunksize := by
  by_contra hlong
  have hfile : ∀ x : UInt8, x = fileByte V d e 0 := by
    intro x
    obtain ⟨hret, hhead⟩ := @catLoop_behind V ⟨some fun _ => x, fun _ => .all, fun i => some (write i)⟩
      d (fun _ => x) e.chunk e.offset e.len hin (Nat.pos_of_ne_zero hchunk) (Nat.lt_of_not_le hlong)
      (Bytes.le_lt e 72 8) hpos (fun _ => ⟨Transfers.all_complete, fun _ => rfl⟩) fun _ => rfl
    have hok : (catFilled V d e write x).1 ≠ .returns (-1) := by
      unfold catFilled
      rw [hret]
      decide
    have hfirst : (catFilled V d e write x).2.head? = some x := hhead (catFilled_length (hrun x) hok)
    rw [hrun x hok, List.head?_map, List.head?_range, if_neg hpos.ne', Option.map_some] at hfirst
    exact (Option.some.inj hfirst).symm
  have hne : (0 : UInt8) = 1 := (hfile 0).trans (hfile 1).symm
  exact absurd hne (by decide)

/-- A tool that prints the file whatever is in memory can read the entry. -/
theorem printable_of_catFilled (hin : ContainerIn V e) (hpos : 0 < e.len)
    (hrun : ∀ x, (catFilled V d e write x).1 ≠ .returns (-1) →
      (catFilled V d e write x).2 = (List.range e.len).map (fileByte V d e)) : Printable V e write := by
  have hchunk := catFilled_chunk hpos (hrun 0)
  have hoff := catFilled_offset hin hpos hchunk hrun
  have hc : 0 < e.chunk := Nat.pos_of_ne_zero hchunk
  refine ⟨hchunk, hoff, fun i => ?_⟩
  have hret : (catFilled V d e write 0).1 = .returns 0 :=
    catLoop_ret (fun _ _ => rfl) (fun _ => rfl) hoff hc hin
  have hlen := catFilled_length (hrun 0) (by rw [hret]; decide)
  have hturn := catLoop_full hoff hc (fun i hi => (hin i hi).1) hret (.inl (Nat.lt_succ_self _))
    (fun _ => rfl) (hlen.trans (Nat.zero_add _).symm) i
  rwa [Nat.zero_add, Option.getD_some] at hturn

end Filled

/-- Both programs read an entry alike exactly if its file is empty, or it begins in the first chunk of its
container, at most at its end, that chunk is not chunk 0, and the standard output takes all bytes that it is
given. Alike is asked for every content of the memory at the I/O buffer and for all outcomes of the members'
transfers that are complete or fail: where both programs return without an error, the bytes printed are the
bytes read. The file is one that the table of the session has under the digest of the token. -/
theorem catfile_alike_iff (V : Volume) (ssize : Nat → Nat) (j : Token) (s : Session) (h : Hash512)
    (el : HtableEl) (write : Nat → Nat) (hs : ∀ m < V.g.nbMembers, SsizeOk (ssize m))
    (hparse : hashParse j.path Bytes.zeros V.hlen = some h)
    (hfound : shfsBtableLookup s.vol.bt h = some el) (hlink : (s.vol.hentry el).isLink = false)
    (hin : ContainerIn V (s.vol.hentry el)) :
    ReadAlike V ssize j s (s.vol.hentry el) write ↔
      (s.vol.hentry el).len = 0 ∨ Printable V (s.vol.hentry el) write := by
  have heq := actnCatfile_eq hparse hfound hlink
  generalize s.vol.hentry el = e at *
  constructor
  · intro halike
    by_contra hno
    obtain ⟨hpos, hprint⟩ := not_or.1 hno
    have hpos : 0 < e.len := Nat.pos_of_ne_zero hpos
    -- no transfer fails, and the buffer of the tools is in memory that holds `x`
    have hfio := @fioRead_ret V ssize s.disk e (fun _ _ => true) (fun _ => Bytes.zeros) Bytes.zeros hs
      hlink hin hpos fun _ _ => rfl
    have hbytes := fioRead_bytes hs hlink hin hfio
    refine hprint (printable_of_catFilled (d := s.disk) hin hpos fun x hret => ?_)
    unfold catFilled at hret ⊢
    rw [← heq] at hret ⊢
    rw [halike (fun _ => x) (fun _ => .all) (fun _ _ => true) (fun _ => Bytes.zeros) Bytes.zeros
      (fun _ => Transfers.all_complete) hret hfio]
    exact List.map_congr_left fun k hk => hbytes k (List.mem_range.1 hk)
  · intro hcond heap io fioIo chkBuf buf hio hcat hfio
    rw [heq] at hcat ⊢
    rcases hcond with hzero | hprint
    · rw [hzero, catLoop, if_pos rfl]
      rfl
    · have htaken : ∀ i n, some (write (0 + i)) = some n → turnLen V.chunksize e.offset e.len i ≤ n := by
        intro i n hn
        rw [← Option.some.inj hn, Nat.zero_add]
        exact hprint.taken i
      have hout := catLoop_out hprint.offset (.inl (Nat.lt_succ_self _))
        (Nat.pos_of_ne_zero hprint.chunk) (fun i hi => (hin i hi).1) hio htaken hcat
      rw [hout, List.nil_append]
      exact List.map_congr_left fun k hk => (fioRead_bytes hs hlink hin hfio k (List.mem_range.1 hk)).symm

end Alike

/-- A session with one entry, whose digest is all ones. -/
def sessionOf (e : Hentry) : Session where
  vol :=
    { bt := { allocHtable 1 1 32 with h := fun _ _ => 1 }
      htableChunkCache := fun _ => e
      htableChunkCacheState := fun _ => false
      bentry := fun _ => ⟨0, 0⟩
      defBentry := none
      al := ⟨4, 0, sallocFirstfit, []⟩ }
  disk := fun _ _ => 0
  cancel := false

/-- An entry of `len` bytes, which begin at `offset` of the container that begins with chunk 2. -/
def fileAt (offset len : Nat) : Hentry :=
  Bytes.putLe (Bytes.putLe (Bytes.putLe Bytes.zeros 64 8 2) 72 8 offset) 80 8 len

/-- The token that names it. -/
def onesToken : Token := plainToken ((List.range 64).map fun k => if k % 2 = 0 then 48 else 49)

theorem fileAt_containerIn {offset len : Nat} (hoff : (fileAt offset len).offset = offset)
    (hlen : (fileAt offset len).len = len) (hlt : offset + len ≤ 2 * 4096) :
    ContainerIn tinyVolume (fileAt offset len) := by
  have hchunk : (fileAt offset len).chunk = 2 := by
    rw [fileAt, Hentry.chunk, Bytes.le_putLe_disjoint (.inl (by decide)),
      Bytes.le_putLe_disjoint (.inl (by decide)), Bytes.le_putLe]
    rfl
  intro i hi
  rw [hoff, hlen] at hi
  rw [hchunk]
  -- the byte lies in chunk 2 or in chunk 3
  have hi2 : i * 4096 < offset + len := hi
  obtain rfl | rfl : i = 0 ∨ i = 1 := by omega
  · unfold Addressed
    decide
  · unfold Addressed
    decide

theorem sessionOf_hentry (e : Hentry) : (sessionOf e).vol.hentry (0, 0) = e :=
  funext fun k => congrArg e (Nat.zero_add k)

/-- A file of 200 bytes, 100 of which lie in either chunk, is read alike if 100 bytes are taken in each turn. -/
theorem catfile_alike_iff_two :
    ReadAlike tinyVolume (fun _ => 512) onesToken (sessionOf (fileAt 3996 200)) (fileAt 3996 200) fun _ => 100 := by
  have halike := catfile_alike_iff tinyVolume (fun _ => 512) onesToken (sessionOf (fileAt 3996 200)) _ (0, 0)
    (fun _ => 100) (fun _ _ => ⟨9, by decide, by decide, rfl⟩) rfl (by decide +kernel) (by decide +kernel)
    (by rw [sessionOf_hentry]; exact fileAt_containerIn (by decide +kernel) (by decide +kernel) (by decide))
  rw [sessionOf_hentry] at halike
  refine halike.2 (.inr ⟨by decide +kernel, by decide +kernel, fun i => ?_⟩)
  have hoff : (fileAt 3996 200).offset = 3996 := by decide +kernel
  have hlen : (fileAt 3996 200).len = 200 := by decide +kernel
  rw [hoff, hlen]
  show min ((i + 1) * 4096) (3996 + 200) - max (i * 4096) 3996 ≤ 100
  omega

/-- Of a byte that is 5000 bytes behind the start of its container the tools print what lies 5000 bytes
behind the start of their buffer of 4096 bytes. -/
theorem catfile_prints_behind :
    ContainerIn tinyVolume (fileAt 5000 1) ∧ (fileAt 5000 1).isLink = false ∧
      actnCatfile tinyVolume onesToken ⟨some fun k => if k < 4096 then 0 else 7, fun _ => .all,
        fun _ => some 1⟩ (sessionOf (fileAt 5000 1)) = (.returns 0, [7]) ∧
      (shfsFioRead tinyVolume.conf (fileAt 5000 1) true (fun _ c => shfsReadChunk tinyVolume.g (fun _ => 512)
        (sessionOf (fileAt 5000 1)).disk (fun _ => true) c Bytes.zeros) 0 1 Bytes.zeros).1 = 0 ∧
      (List.range 1).map (shfsFioRead tinyVolume.conf (fileAt 5000 1) true
        (fun _ c => shfsReadChunk tinyVolume.g (fun _ => 512) (sessionOf (fileAt 5000 1)).disk (fun _ => true)
          c Bytes.zeros) 0 1 Bytes.zeros).2.buf = [0] :=
  ⟨fileAt_containerIn (by decide +kernel) (by decide +kernel) (by decide), by decide +kernel, by decide +kernel,
    by decide +kernel, by decide +kernel⟩

end Minipython.Tools.Admin
