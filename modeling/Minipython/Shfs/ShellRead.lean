/-
# Minipython.Shfs.ShellRead — the commands that read files (shfs_tools.c)

`cat`, `df` and `prefetch` read a file piece by piece through the chunk cache. Between two pieces, and while a
piece is read, other callers and the devices do with the cache what they like, as long as every event is
orderly: nobody takes the buffer of a call that waits for a slot, no part of its request is done before the
whole of it was handed over, and no count of references wraps. `shellRead_spec` is what a piece is worth then.

The three commands differ in the pieces that they take and in what they make of them. `cat` takes 1023 bytes
and prints them without the zeros, as it prints strings. `df` takes 1024 bytes, 64 full lines of its dump, so
that the lines of two pieces are those of one dump. `prefetch` takes 4096 bytes from behind.

A file of which `cat` and `df` can read all that `f_attr` says has addresses of 64 bits (`Contained`): the
readers add the offset in the file to that of the file in its first chunk without a check.
-/
import Minipython.Minios.HexdumpText
import Minipython.Shfs.CacheRead

namespace Minipython.Shfs

open Minipython.Lib
open Minipython.Minios (HexdumpArgs hexdump slice)

/-! ## The commands -/

/-- The bytes of a text of the source. -/
def ascii (s : String) : List UInt8 := s.toUTF8.toList

/-- What a command meets. The calls of `shfs_fio_cache_read` are numbered. -/
structure ShellEnv where
  /-- what the call meets in each turn -/
  reads : Nat → Nat → CacheReadEnv
  /-- what others do before the call -/
  between : Nat → List LoadedEvent
  /-- what is on the stack for `linebuf` -/
  linebuf : Nat → Bytes
  strerror : Int → List UInt8

/-- What a command returns, and what it prints. -/
structure ShellOut where
  ret : Int
  text : List UInt8

/-- A text that is printed in front. -/
def ShellOut.behind (text : List UInt8) (out : ShellOut) : ShellOut := ⟨out.ret, text ++ out.text⟩

/-- A file of the command line, with what `shfs_fio_open` finds. -/
structure ShellFile where
  name : List UInt8
  opened : Except Int Hentry

section Commands

variable (conf : CacheConf) (chunksize : Nat) (vol : Nat → Bytes) (allowed : Allowed)
  [∀ s e, Decidable (allowed s e)] (E : ShellEnv)

/-- `"Usage: %s [file]\n"`. -/
def usage (argv0 tail : List UInt8) : ShellOut := ⟨-1, ascii "Usage: " ++ argv0 ++ tail⟩

/-- `"%s: Could not open: %s\n"`. -/
def openError (name : List UInt8) (errno : Int) : List UInt8 :=
  name ++ ascii ": Could not open: " ++ E.strerror errno ++ [10]

/-- `"%s: Read error: %s\n"`. -/
def readError (name : List UInt8) (ret : Int) : List UInt8 :=
  name ++ ascii ": Read error: " ++ E.strerror (-ret) ++ [10]

/-- The call `n` of `shfs_fio_cache_read`. -/
def shellRead (e : Hentry) (n offset len : Nat) (buf : Bytes) (s : Loaded) :
    Option ((Int × Reading) × Loaded) :=
  ((within conf chunksize vol allowed).exec s (E.between n)).bind
    (Loaded.shfsFioCacheRead conf chunksize vol allowed e (E.reads n) offset len buf)

/-- `hexdump(cio, buf, dlen, "", HDAT_RELATIVE, cur, 16, 4, 1)`. -/
def dumpArgs : HexdumpArgs := ⟨[], .relative, 16, 4, true⟩

/-- `while (left)` of `shcmd_shfs_dumpfile`. Nothing comes out of it where a read does not return. -/
def dumpfileLoop (name : List UInt8) (e : Hentry) :
    Nat → Nat → Nat → Nat → Int → Bytes → Loaded → Option (Except Fault ShellOut)
  | 0, _, _, _, ret, _, _ => some (.ok ⟨ret, []⟩)
  | fuel + 1, n, left, cur, ret, buf, s =>
      if left = 0 then some (.ok ⟨ret, []⟩)
      else
        let dlen := min left 1024
        match shellRead conf chunksize vol allowed E e n cur dlen buf s with
        | none => none
        | some ((ret, r), s) =>
            if ret < 0 then some (.ok ⟨ret, readError E name ret⟩)
            else
              match hexdump dumpArgs r.buf dlen cur (E.linebuf n) with
              | .error f => some (.error f)
              | .ok text =>
                  (dumpfileLoop name e fuel (n + 1) (left - dlen) (cur + dlen) ret r.buf s).map
                    fun out => out.map (ShellOut.behind text)

/-- `shcmd_shfs_dumpfile`; `files` is the command line behind the name of the command. -/
def shcmdShfsDumpfile (argv0 : List UInt8) (files : List ShellFile) (buf : Bytes) (s : Loaded) :
    Option (Except Fault ShellOut) :=
  match files with
  | [] => some (.ok (usage argv0 (ascii " [file]\n")))
  | f :: _ =>
      match f.opened with
      | .error errno => some (.ok ⟨-1, openError E f.name errno⟩)
      | .ok e => dumpfileLoop conf chunksize vol allowed E f.name e (shfsFioSize e) 0 (shfsFioSize e) 0 0 buf s

/-- The string at `buf + plen`, in front of the terminator behind the `dlen` bytes. -/
def stringAt (buf : Bytes) (dlen plen : Nat) : List UInt8 := (slice buf plen dlen).takeWhile (· ≠ 0)

/-- `while (plen < dlen)` of `shcmd_shfs_cat`, which goes on behind a zero. -/
def catPrint (buf : Bytes) (dlen : Nat) : Nat → Nat → List UInt8
  | 0, _ => []
  | fuel + 1, plen =>
      if plen < dlen then
        let text := stringAt buf dlen plen
        let plen := plen + text.length
        text ++ catPrint buf dlen fuel (if plen < dlen then plen + 1 else plen)
      else []

/-- What a file of `cat` comes to: what it prints, the number of the next call, the buffer and the cache. -/
structure CatState where
  out : ShellOut
  n : Nat
  buf : Bytes
  s : Loaded

/-- `while (left)` of `shcmd_shfs_cat`. -/
def catLoop (name : List UInt8) (e : Hentry) :
    Nat → Nat → Nat → Nat → Int → Bytes → Loaded → Option CatState
  | 0, n, _, _, ret, buf, s => some ⟨⟨ret, []⟩, n, buf, s⟩
  | fuel + 1, n, left, cur, ret, buf, s =>
      if left = 0 then some ⟨⟨ret, []⟩, n, buf, s⟩
      else
        let dlen := min left 1023
        match shellRead conf chunksize vol allowed E e n cur dlen buf s with
        | none => none
        | some ((ret, r), s) =>
            if ret < 0 then some ⟨⟨ret, readError E name ret⟩, n + 1, r.buf, s⟩
            else
              let buf := Function.update r.buf dlen 0
              (catLoop name e fuel (n + 1) (left - dlen) (cur + dlen) ret buf s).map fun x =>
                { x with out := x.out.behind (catPrint buf dlen dlen 0) }

/-- The loop over the files. -/
def catFiles : List ShellFile → Nat → Int → Bytes → Loaded → Option ShellOut
  | [], _, ret, _, _ => some ⟨ret, []⟩
  | f :: files, n, ret, buf, s =>
      match f.opened with
      | .error errno => some ⟨-1, openError E f.name errno⟩
      | .ok e =>
          match catLoop conf chunksize vol allowed E f.name e (shfsFioSize e) n (shfsFioSize e) 0 ret buf s with
          | none => none
          | some x =>
              if x.out.ret < 0 then some x.out
              else (catFiles files x.n x.out.ret x.buf x.s).map (ShellOut.behind x.out.text)

/-- `shcmd_shfs_cat`. -/
def shcmdShfsCat (argv0 : List UInt8) (files : List ShellFile) (buf : Bytes) (s : Loaded) : Option ShellOut :=
  match files with
  | [] => some (usage argv0 (ascii " [file]...\n"))
  | files => catFiles conf chunksize vol allowed E files 0 0 buf s

end Commands

/-! ## A piece of a file -/

/-- The byte `k` of the file, on the volume. -/
def fileBytes (cs : Nat) (vol : Nat → Bytes) (e : Hentry) : Bytes := fun k => volByte cs vol (rangeStart cs e k)

/-- The first bytes of a file. -/
def fileHead (cs : Nat) (vol : Nat → Bytes) (e : Hentry) (n : Nat) : List UInt8 :=
  slice (fileBytes cs vol e) 0 n

/-- A link, or a file in a container of the volume whose bytes have addresses of 64 bits. -/
def Contained (cs volsize : Nat) (e : Hentry) : Prop :=
  e.isLink = false → ContainerWithin cs volsize e ∧ e.offset + e.len < u64Size

section Pieces

variable {conf : CacheConf} {cs : Nat} {vol : Nat → Bytes} {E : ShellEnv} {e : Hentry} {s s' : Loaded}
  {n offset len : Nat} {buf : Bytes}

/-- The loop of a reader returns 0 or an error. -/
theorem fioLoop_nonpos (read : Nat → Nat → ChunkRead) (fuel i chkOff bytOff bufOff left : Nat) (r : Reading) :
    (fioLoop cs read fuel i chkOff bytOff bufOff left r).1 ≤ 0 := by
  induction fuel generalizing i chkOff bytOff bufOff left r with
  | zero => exact Int.le_refl 0
  | succ fuel ih =>
      rw [fioLoop]
      split
      · exact Int.le_refl 0
      · split
        · rename_i err _
          exact Int.le_of_lt err.2
        · exact ih ..

/-- A cached reader keeps the invariant of the cache. -/
theorem fioCacheReader_inv {read : Nat → CacheReadEnv → Loaded → Option (Except ErrRet Ref × Loaded)}
    (hspec : ReadSpec conf cs vol read) {env : Nat → CacheReadEnv} {out : Int × Reading}
    (h : LoadedInv conf cs vol s)
    (hread : Loaded.fioCacheReader conf cs vol (orderly conf) e read env offset len buf s = some (out, s')) :
    LoadedInv conf cs vol s' := by
  unfold Loaded.fioCacheReader at hread
  split at hread
  · rcases Prod.mk.inj (Option.some.inj hread) with ⟨-, rfl⟩
    exact h
  · split at hread
    · rcases Prod.mk.inj (Option.some.inj hread) with ⟨-, rfl⟩
      exact h
    · exact (fioCacheLoop_outcomes hspec h hread).1

/-- A piece that is read on the cache is read with outcomes of chunk reads, which deliver. -/
theorem shellRead_spec {out : Int × Reading} (h : LoadedInv conf cs vol s)
    (hread : shellRead conf cs vol (orderly conf) E e n offset len buf s = some (out, s')) :
    LoadedInv conf cs vol s' ∧
      ∃ outcomes, Delivers cs vol outcomes ∧ fioReader cs e true outcomes offset len buf = out := by
  rcases Option.bind_eq_some_iff.1 hread with ⟨u, hexec, hread⟩
  have hspec : ReadSpec conf cs vol (Loaded.shfsCacheRead conf cs vol (orderly conf)) :=
    fun _ _ _ _ _ h hread => shfsCacheRead_spec h hread
  have hu := h.run (.of_exec hexec)
  exact ⟨fioCacheReader_inv hspec hu hread, fioCacheReader_outcomes hspec hu hread⟩

/-- A piece of a file is read by the loop of the readers. -/
structure PieceFits (cs volsize : Nat) (e : Hentry) (offset len : Nat) : Prop where
  file : e.isLink = false
  within : ContainerWithin cs volsize e
  addr : e.offset + e.len < u64Size
  range : offset + len ≤ e.len
  loop : ∀ outcomes buf, fioReader cs e true outcomes offset len buf =
    fioLoop cs outcomes len 0 (shfsVolchkFoff cs e offset) (shfsVolchkoffFoff cs e offset) 0 len ⟨buf, []⟩

theorem Contained.piece {volsize : Nat} (hin : Contained cs volsize e)
    (hrange : offset + len ≤ shfsFioSize e) (hlen : 0 < len) : PieceFits cs volsize e offset len := by
  have hlink : e.isLink = false := by
    by_contra hne
    rw [shfsFioSize, if_pos (by simpa using hne)] at hrange
    omega
  rw [shfsFioSize, if_neg (by simp [hlink])] at hrange
  rcases hin hlink with ⟨hwithin, haddr⟩
  have hlt := e.len_lt
  refine ⟨hlink, hwithin, haddr, hrange, fun outcomes buf => ?_⟩
  rw [fioReader_passes hlink (by omega) hlt (.inl hrange), if_pos rfl]

/-- A piece of a file that is read without an error is that piece. -/
theorem shellRead_file {ret : Int} {r : Reading} (hcs : 0 < cs) (hcs64 : cs < u64Size)
    (hin : Contained cs conf.volsize e) (hrange : offset + len ≤ shfsFioSize e) (hlen : 0 < len)
    (h : LoadedInv conf cs vol s)
    (hread : shellRead conf cs vol (orderly conf) E e n offset len buf s = some ((ret, r), s')) :
    LoadedInv conf cs vol s' ∧ ret ≤ 0 ∧
      (¬ ret < 0 → slice r.buf 0 len = slice (fileBytes cs vol e) offset (offset + len)) := by
  rcases shellRead_spec h hread with ⟨hs', outcomes, hdelivers, hout⟩
  have hpiece := hin.piece hrange hlen
  have hrange := hpiece.range
  have haddr := hpiece.addr
  have hret : (fioReader cs e true outcomes offset len buf).1 = ret := by rw [hout]
  have hbuf : (fioReader cs e true outcomes offset len buf).2 = r := by rw [hout]
  have hle : ret ≤ 0 := by
    rw [← hret, hpiece.loop]
    exact fioLoop_nonpos ..
  refine ⟨hs', hle, fun hok => ?_⟩
  have hzero : (fioReader cs e true outcomes offset len buf).1 = 0 := by omega
  have hstored := (fioReader_stores hcs hcs64 hpiece.file hpiece.within conf.volsize_lt hrange (by omega)
    hdelivers hzero).1
  rw [hbuf] at hstored
  rw [← Minios.slice_window]
  refine List.map_congr_left fun k hk => ?_
  have hk : k < len := by
    have hmem := List.mem_range'_1.1 hk
    omega
  rw [hstored k hk]
  show volByte cs vol _ = volByte cs vol _
  unfold rangeStart
  rw [Nat.add_assoc]

end Pieces

/-- How a command is through with `left` bytes of a file: it has come to the end, or a piece of `size` bytes
could not be read, and `n` bytes are in front of it. -/
def PieceEnds (E : ShellEnv) (name : List UInt8) (size left n : Nat) (ret : Int) (msg : List UInt8) : Prop :=
  ret = 0 ∧ n = left ∧ msg = [] ∨ ret < 0 ∧ n < left ∧ size ∣ n ∧ msg = readError E name ret

/-- A piece in front of the rest. -/
theorem PieceEnds.behind {E : ShellEnv} {name msg : List UInt8} {size left n : Nat} {ret : Int}
    (h : PieceEnds E name size (left - size) n ret msg) (hle : size ≤ left) :
    PieceEnds E name size left (size + n) ret msg := by
  rcases h with ⟨hret, hn, hmsg⟩ | ⟨hret, hn, hdvd, hmsg⟩
  · exact .inl ⟨hret, by omega, hmsg⟩
  · exact .inr ⟨hret, by omega, (Nat.dvd_add_right (Nat.dvd_refl size)).2 hdvd, hmsg⟩

/-! ## `df` -/

section Dump

variable {conf : CacheConf} {cs : Nat} {vol : Nat → Bytes} {E : ShellEnv} {e : Hentry} {s : Loaded}
  {name : List UInt8}

/-- The address in front of a line. -/
def dumpHead (i : Nat) : List UInt8 := Minios.hex8 i ++ [58, 32]

theorem dumpHead_line (i : Nat) : (dumpHead i).length = 10 ∧ 10 ∉ dumpHead i := by
  constructor
  · simp [dumpHead, Minios.hex8]
  · intro hmem
    rcases List.mem_append.1 hmem with hmem | hmem
    · rcases List.mem_map.1 hmem with ⟨k, -, hk⟩
      have hdigit : UInt8.ofNat (i / 16 ^ (7 - k) % 16) < 16 := by
        rw [UInt8.lt_iff_toNat_lt, UInt8.toNat_ofNat']
        have hlt := Nat.mod_lt (i / 16 ^ (7 - k)) (by decide : 0 < 16)
        show _ < 16
        omega
      exact (Minios.hexChar_text _ hdigit).2.ne_newline hk
    · exact absurd hmem (by decide)

/-- The loop dumps pieces of 1024 bytes. -/
theorem dumpfileLoop_spec (hcs : 0 < cs) (hcs64 : cs < u64Size) (hin : Contained cs conf.volsize e)
    {fuel i left cur : Nat} {buf : Bytes} {x : Except Fault ShellOut} (hfuel : left ≤ fuel)
    (hsize : cur + left = shfsFioSize e) (h : LoadedInv conf cs vol s)
    (hloop : dumpfileLoop conf cs vol (orderly conf) E name e fuel i left cur 0 buf s = some x) :
    ∃ out lines n msg, x = .ok out ∧ out.text = unlines 10 lines ++ msg ∧
      Minios.Dumped dumpHead 16 4 cur (slice (fileBytes cs vol e) cur (cur + n)) lines ∧
      PieceEnds E name 1024 left n out.ret msg := by
  have hnone : slice (fileBytes cs vol e) cur (cur + 0) = [] := Minios.slice_nil (by omega)
  induction fuel generalizing i left cur buf s x with
  | zero =>
      rw [← Option.some.inj hloop]
      exact ⟨_, [], 0, [], rfl, rfl, hnone ▸ .nil cur, Or.inl ⟨rfl, by omega, rfl⟩⟩
  | succ fuel ih =>
      rw [dumpfileLoop] at hloop
      by_cases h0 : left = 0
      · rw [if_pos h0] at hloop
        rw [← Option.some.inj hloop]
        exact ⟨_, [], 0, [], rfl, rfl, hnone ▸ .nil cur, Or.inl ⟨rfl, h0.symm, rfl⟩⟩
      rw [if_neg h0] at hloop
      dsimp only at hloop
      generalize hd : min left 1024 = dlen at hloop
      cases hread : shellRead conf cs vol (orderly conf) E e i cur dlen buf s with
      | none =>
          rw [hread] at hloop
          cases hloop
      | some y =>
          rcases y with ⟨⟨ret, r⟩, s'⟩
          rcases shellRead_file hcs hcs64 hin (by omega) (by omega) h hread with ⟨hs', hret, hpiece⟩
          rw [hread] at hloop
          dsimp only at hloop
          by_cases hneg : ret < 0
          · rw [if_pos hneg] at hloop
            rw [← Option.some.inj hloop]
            exact ⟨_, [], 0, _, rfl, rfl, hnone ▸ .nil cur, Or.inr ⟨hneg, by omega, ⟨0, rfl⟩, rfl⟩⟩
          rw [if_neg hneg] at hloop
          obtain rfl : ret = 0 := by omega
          have hpiece := hpiece hneg
          have hfits : dumpArgs.Fits := ⟨.inl rfl, .inr (.inr (.inl rfl))⟩
          rcases Minios.hexdump_dumped hfits r.buf dlen cur (E.linebuf i) with ⟨lines, hdump, hlines, hcount⟩
          rw [hdump] at hloop
          rw [hpiece] at hlines
          have hlines : Minios.Dumped (fun i => dumpHead (i + cur)) 16 4 0
            (slice (fileBytes cs vol e) cur (cur + dlen)) lines := hlines
          have hlines := hlines.shift
          rw [Nat.zero_add] at hlines
          have hcount : lines.length = (dlen + 16 - 1) / 16 := hcount
          rcases Option.map_eq_some_iff.1 hloop with ⟨y, hrest, rfl⟩
          by_cases hmore : 1024 ≤ left
          · rcases ih (by omega) (by omega) hs' hrest (Minios.slice_nil (by omega))
              with ⟨out, lines', n, msg, rfl, htext, hdumped, hends⟩
            have hat : cur + lines.length * 16 = cur + dlen := by omega
            refine ⟨_, lines ++ lines', dlen + n, msg, rfl, ?_, ?_, ?_⟩
            · rw [unlines_append, List.append_assoc, ← htext]
              rfl
            · have hall := hlines.append (by rw [hat]; exact hdumped)
              rw [Minios.slice_append (by omega) (by omega)] at hall
              rwa [← Nat.add_assoc]
            · obtain rfl : dlen = 1024 := by omega
              exact hends.behind hmore
          · -- the last piece
            have hzero : left - dlen = 0 := by omega
            have hlast : dumpfileLoop conf cs vol (orderly conf) E name e fuel (i + 1) 0 (cur + dlen) 0 r.buf s' =
                some (.ok ⟨0, []⟩) := by
              cases fuel with
              | zero => rfl
              | succ fuel => rw [dumpfileLoop, if_pos rfl]
            rw [hzero, hlast] at hrest
            rw [← Option.some.inj hrest]
            exact ⟨_, lines, dlen, [], rfl, rfl, hlines, Or.inl ⟨rfl, by omega, rfl⟩⟩

/-- What `df` prints of a file, whatever others do with the cache meanwhile in an orderly way, is a dump from
which the bytes of the file are read back, each line with the low 32 bits of the address of its bytes in front.
Where a piece cannot be read, it is a dump of all pieces in front of it, and the message. -/
theorem dumpfile_reads_back (conf : CacheConf) (vconf : VolConf) (vol : Nat → Bytes) (E : ShellEnv)
    (argv0 : List UInt8) (f : ShellFile) (files : List ShellFile) (buf : Bytes) {s : Loaded} {e : Hentry}
    {x : Except Fault ShellOut} (hopen : f.opened = .ok e)
    (hin : Contained vconf.geom.chunksize conf.volsize e)
    (hs : Reachable conf vconf.geom.chunksize vol (orderly conf) s)
    (hrun : shcmdShfsDumpfile conf vconf.geom.chunksize vol (orderly conf) E argv0 (f :: files) buf s = some x) :
    ∃ out lines n msg, x = .ok out ∧ out.text = unlines 10 lines ++ msg ∧
      Minios.readHexdump 10 16 4 (unlines 10 lines) = some (fileHead vconf.geom.chunksize vol e n) ∧
      (∀ k (hk : k < lines.length), dumpHead (k * 16) <+: lines[k]) ∧
      PieceEnds E f.name 1024 (shfsFioSize e) n out.ret msg := by
  have hbounds := vconf.geom.chunksize_bounds
  have hlt : vconf.geom.chunksize < u64Size := Nat.lt_of_le_of_lt hbounds.2 (by decide)
  simp only [shcmdShfsDumpfile, hopen] at hrun
  rcases dumpfileLoop_spec (by omega) hlt hin (Nat.le_refl _) (Nat.zero_add _) hs.inv hrun
    with ⟨out, lines, n, msg, hx, htext, hdumped, hends⟩
  rw [Nat.zero_add] at hdumped
  refine ⟨out, lines, n, msg, hx, htext, hdumped.read dumpHead_line, fun k hk => ?_, hends⟩
  have haddr := hdumped.address hk
  rwa [Nat.zero_add] at haddr

/-- A shell in front of the tiny cache, to which nothing happens but that its device completes. The first chunk
of a piece waits for a slot. -/
def quietShell : ShellEnv :=
  ⟨fun _ i => if i = 0 then slowRead 0 else lonelyRead 1, fun _ => [], fun _ => Bytes.zeros, fun _ => []⟩

theorem twoChunkFile_contained : Contained tinyConf.geom.chunksize tinyCache.volsize twoChunkFile :=
  fun _ => ⟨twoChunkFile_within, by decide⟩

theorem tinyInit_reachable : Reachable tinyCache tinyConf.geom.chunksize numbered (orderly tinyCache)
    ⟨tinyInit, fun _ => Bytes.zeros⟩ :=
  ⟨_, _, _, _, _, _, _, .nil _⟩

/-- A dump of the file in chunks 2 and 3. -/
theorem dumpfile_reads_back_two : ∃ x, shcmdShfsDumpfile tinyCache 4096 numbered (orderly tinyCache) quietShell
      [100, 102] [⟨[98], .ok twoChunkFile⟩] Bytes.zeros ⟨tinyInit, fun _ => Bytes.zeros⟩ = some x ∧
    x.toOption.map ShellOut.text =
      some (ascii "00000000: 02 02 02 02  02 02 03 03  03 03 03 03              .... .... .... \n") ∧
    ∃ out lines n msg, x = .ok out ∧ out.text = unlines 10 lines ++ msg ∧
      Minios.readHexdump 10 16 4 (unlines 10 lines) = some (fileHead 4096 numbered twoChunkFile n) ∧
      (∀ k (hk : k < lines.length), dumpHead (k * 16) <+: lines[k]) ∧
      PieceEnds quietShell [98] 1024 (shfsFioSize twoChunkFile) n out.ret msg := by
  have hrun : (shcmdShfsDumpfile tinyCache 4096 numbered (orderly tinyCache) quietShell [100, 102]
      [⟨[98], .ok twoChunkFile⟩] Bytes.zeros ⟨tinyInit, fun _ => Bytes.zeros⟩).any
        (fun x => x.toOption.map ShellOut.text =
          some (ascii "00000000: 02 02 02 02  02 02 03 03  03 03 03 03              .... .... .... \n")) =
      true := by
    decide +kernel
  rcases (Option.any_eq_true _ _).1 hrun with ⟨x, hx, htext⟩
  exact ⟨x, hx, of_decide_eq_true htext, dumpfile_reads_back tinyCache tinyConf numbered quietShell [100, 102]
    ⟨[98], .ok twoChunkFile⟩ [] Bytes.zeros rfl twoChunkFile_contained tinyInit_reachable hx⟩

end Dump

/-! ## `cat` -/

section Cat

variable {conf : CacheConf} {cs : Nat} {vol : Nat → Bytes} {E : ShellEnv} {e : Hentry} {s : Loaded}
  {name : List UInt8}

/-- The bytes of a text that `cat` prints. -/
def shown (text : List UInt8) : List UInt8 := text.filter (· ≠ 0)

theorem stringAt_end (buf : Bytes) (plen : Nat) : stringAt buf plen plen = [] := by
  rw [stringAt, Minios.slice_nil (Nat.le_refl _)]
  rfl

theorem stringAt_cons {buf : Bytes} {plen dlen : Nat} (hlt : plen < dlen) (h0 : buf plen ≠ 0) :
    stringAt buf dlen plen = buf plen :: stringAt buf dlen (plen + 1) := by
  rw [stringAt, Minios.slice_cons hlt, List.takeWhile_cons_of_pos (by simpa using h0)]
  rfl

theorem stringAt_zero {buf : Bytes} {plen dlen : Nat} (hlt : plen < dlen) (h0 : buf plen = 0) :
    stringAt buf dlen plen = [] := by
  rw [stringAt, Minios.slice_cons hlt, List.takeWhile_cons_of_neg (by simp [h0])]

/-- A string ends in front of a zero, or with the bytes. -/
theorem stringAt_shown (buf : Bytes) {plen dlen : Nat} (h : plen ≤ dlen) :
    ∃ mid, plen ≤ mid ∧ mid ≤ dlen ∧ mid = plen + (stringAt buf dlen plen).length ∧
      (mid < dlen → buf mid = 0) ∧
      shown (slice buf plen dlen) = stringAt buf dlen plen ++ shown (slice buf mid dlen) := by
  induction hk : dlen - plen generalizing plen with
  | zero =>
      obtain rfl : plen = dlen := by omega
      exact ⟨plen, h, h, by simp [stringAt_end], by simp, by simp [stringAt_end]⟩
  | succ k ih =>
      have hlt : plen < dlen := by omega
      by_cases h0 : buf plen = 0
      · rw [stringAt_zero hlt h0]
        exact ⟨plen, Nat.le_refl _, h, by simp, fun _ => h0, by simp⟩
      · rcases @ih (plen + 1) (by omega) (by omega) with ⟨mid, hle, hle', hmid, hend, hshown⟩
        rw [stringAt_cons hlt h0, List.length_cons]
        refine ⟨mid, by omega, hle', by omega, hend, ?_⟩
        rw [Minios.slice_cons hlt, List.cons_append, ← hshown]
        simp [shown, h0]

/-- The inner loop prints what is in the buffer but for its zeros. -/
theorem catPrint_eq (buf : Bytes) {dlen fuel plen : Nat} (hle : plen ≤ dlen) (hfuel : dlen - plen ≤ fuel) :
    catPrint buf dlen fuel plen = shown (slice buf plen dlen) := by
  induction fuel generalizing plen with
  | zero =>
      rw [catPrint, Minios.slice_nil (by omega)]
      rfl
  | succ fuel ih =>
      rw [catPrint]
      by_cases hlt : plen < dlen
      · rw [if_pos hlt]
        dsimp only
        rcases stringAt_shown buf hle with ⟨mid, hge, hle', hmid, hend, hshown⟩
        rw [hshown, ← hmid]
        congr 1
        by_cases hmore : mid < dlen
        · rw [if_pos hmore, ih (by omega) (by omega), Minios.slice_cons hmore, hend hmore]
          rfl
        · obtain rfl : mid = dlen := by omega
          rw [if_neg hmore]
          cases fuel with
          | zero =>
              rw [catPrint, Minios.slice_nil (Nat.le_refl _)]
              rfl
          | succ fuel => exact ih (Nat.le_refl _) (by omega)
      · rw [if_neg hlt, Minios.slice_nil (by omega)]
        rfl

/-- The loop prints pieces of 1023 bytes. -/
theorem catLoop_spec (hcs : 0 < cs) (hcs64 : cs < u64Size) (hin : Contained cs conf.volsize e)
    {fuel i left cur : Nat} {buf : Bytes} {x : CatState} (hfuel : left ≤ fuel)
    (hsize : cur + left = shfsFioSize e) (h : LoadedInv conf cs vol s)
    (hloop : catLoop conf cs vol (orderly conf) E name e fuel i left cur 0 buf s = some x) :
    LoadedInv conf cs vol x.s ∧ ∃ n msg,
      x.out.text = shown (slice (fileBytes cs vol e) cur (cur + n)) ++ msg ∧
      PieceEnds E name 1023 left n x.out.ret msg := by
  have hnone : slice (fileBytes cs vol e) cur (cur + 0) = [] := Minios.slice_nil (by omega)
  induction fuel generalizing i left cur buf s x with
  | zero =>
      rw [← Option.some.inj hloop]
      exact ⟨h, 0, [], by rw [hnone]; rfl, Or.inl ⟨rfl, by omega, rfl⟩⟩
  | succ fuel ih =>
      rw [catLoop] at hloop
      by_cases h0 : left = 0
      · rw [if_pos h0] at hloop
        rw [← Option.some.inj hloop]
        exact ⟨h, 0, [], by rw [hnone]; rfl, Or.inl ⟨rfl, h0.symm, rfl⟩⟩
      rw [if_neg h0] at hloop
      dsimp only at hloop
      generalize hd : min left 1023 = dlen at hloop
      cases hread : shellRead conf cs vol (orderly conf) E e i cur dlen buf s with
      | none =>
          rw [hread] at hloop
          cases hloop
      | some y =>
          rcases y with ⟨⟨ret, r⟩, s'⟩
          rcases shellRead_file hcs hcs64 hin (by omega) (by omega) h hread with ⟨hs', hret, hpiece⟩
          rw [hread] at hloop
          dsimp only at hloop
          by_cases hneg : ret < 0
          · rw [if_pos hneg] at hloop
            rw [← Option.some.inj hloop]
            exact ⟨hs', 0, _, by rw [hnone]; rfl, Or.inr ⟨hneg, by omega, ⟨0, rfl⟩, rfl⟩⟩
          rw [if_neg hneg] at hloop
          obtain rfl : ret = 0 := by omega
          have hpiece := hpiece hneg
          have hterm : slice (Function.update r.buf dlen 0) 0 dlen = slice r.buf 0 dlen :=
            List.map_congr_left fun k hk => by
              have hmem := List.mem_range'_1.1 hk
              rw [Function.update_of_ne (by omega)]
          rw [catPrint_eq _ (Nat.zero_le _) (by omega), hterm, hpiece] at hloop
          rcases Option.map_eq_some_iff.1 hloop with ⟨y, hrest, rfl⟩
          by_cases hmore : 1023 ≤ left
          · obtain rfl : dlen = 1023 := by omega
            rcases ih (by omega) (by omega) hs' hrest (Minios.slice_nil (by omega))
              with ⟨hy, n, msg, htext, hends⟩
            refine ⟨hy, 1023 + n, msg, ?_, hends.behind hmore⟩
            show _ ++ y.out.text = _
            rw [htext, ← List.append_assoc, shown, shown, ← List.filter_append,
              Minios.slice_append (by omega) (by omega), ← Nat.add_assoc]
            rfl
          · -- the last piece
            have hzero : left - dlen = 0 := by omega
            have hlast : catLoop conf cs vol (orderly conf) E name e fuel (i + 1) 0 (cur + dlen) 0
                (Function.update r.buf dlen 0) s' =
                some ⟨⟨0, []⟩, i + 1, Function.update r.buf dlen 0, s'⟩ := by
              cases fuel with
              | zero => rfl
              | succ fuel => rw [catLoop, if_pos rfl]
            rw [hzero, hlast] at hrest
            rw [← Option.some.inj hrest]
            exact ⟨hs', dlen, [], rfl, Or.inl ⟨rfl, by omega, rfl⟩⟩

/-- What `cat` returns and prints of the files: they stand one behind the other without their zeros, up to the
first one that cannot be opened, or a piece that cannot be read. The message is the end then. -/
inductive CatPrints (cs : Nat) (vol : Nat → Bytes) (E : ShellEnv) :
    List ShellFile → Int → List UInt8 → Prop where
  | done : CatPrints cs vol E [] 0 []
  | noOpen {f : ShellFile} {files : List ShellFile} {errno : Int} (hopen : f.opened = .error errno) :
      CatPrints cs vol E (f :: files) (-1) (openError E f.name errno)
  | noRead {f : ShellFile} {files : List ShellFile} {e : Hentry} {n : Nat} {ret : Int}
      (hopen : f.opened = .ok e) (hret : ret < 0) (hn : n < shfsFioSize e) (hpiece : 1023 ∣ n) :
      CatPrints cs vol E (f :: files) ret (shown (fileHead cs vol e n) ++ readError E f.name ret)
  | file {f : ShellFile} {files : List ShellFile} {e : Hentry} {ret : Int} {text : List UInt8}
      (hopen : f.opened = .ok e) (hrest : CatPrints cs vol E files ret text) :
      CatPrints cs vol E (f :: files) ret (shown (fileHead cs vol e (shfsFioSize e)) ++ text)

theorem catFiles_spec (hcs : 0 < cs) (hcs64 : cs < u64Size) {files : List ShellFile} {n : Nat} {buf : Bytes}
    {out : ShellOut} (hin : ∀ f ∈ files, ∀ e, f.opened = .ok e → Contained cs conf.volsize e)
    (h : LoadedInv conf cs vol s) (hrun : catFiles conf cs vol (orderly conf) E files n 0 buf s = some out) :
    CatPrints cs vol E files out.ret out.text := by
  induction files generalizing n buf s out with
  | nil =>
      rw [← Option.some.inj hrun]
      exact .done
  | cons f files ih =>
      rw [catFiles] at hrun
      cases hopen : f.opened with
      | error errno =>
          rw [hopen] at hrun
          rw [← Option.some.inj hrun]
          exact .noOpen hopen
      | ok e =>
          rw [hopen] at hrun
          dsimp only at hrun
          cases hloop : catLoop conf cs vol (orderly conf) E f.name e (shfsFioSize e) n (shfsFioSize e) 0 0 buf s with
          | none =>
              rw [hloop] at hrun
              cases hrun
          | some x =>
              rw [hloop] at hrun
              dsimp only at hrun
              rcases catLoop_spec hcs hcs64 (hin f List.mem_cons_self e hopen) (Nat.le_refl _) (Nat.zero_add _)
                h hloop with ⟨hx, m, msg, htext, hends⟩
              rw [Nat.zero_add] at htext
              rcases hends with ⟨hret, rfl, rfl⟩ | ⟨hret, hm, hdvd, rfl⟩
              · rw [if_neg (by omega), hret] at hrun
                rcases Option.map_eq_some_iff.1 hrun with ⟨y, hrest, rfl⟩
                rw [List.append_nil] at htext
                show CatPrints cs vol E (f :: files) y.ret (x.out.text ++ y.text)
                rw [htext]
                exact .file hopen (ih (fun g hg => hin g (List.mem_cons_of_mem f hg)) hx hrest)
              · rw [if_pos hret] at hrun
                rw [← Option.some.inj hrun, htext]
                exact .noRead hopen hret hm hdvd

/-- Whatever others do with the cache meanwhile in an orderly way, `cat` prints its files one behind the other
without their zeros, up to the first one that cannot be opened, or a piece of 1023 bytes that cannot be read, and
the message for it. -/
theorem cat_prints_files (conf : CacheConf) (vconf : VolConf) (vol : Nat → Bytes) (E : ShellEnv)
    (argv0 : List UInt8) (files : List ShellFile) (buf : Bytes) {s : Loaded} {out : ShellOut} (hne : files ≠ [])
    (hin : ∀ f ∈ files, ∀ e, f.opened = .ok e → Contained vconf.geom.chunksize conf.volsize e)
    (hs : Reachable conf vconf.geom.chunksize vol (orderly conf) s)
    (hrun : shcmdShfsCat conf vconf.geom.chunksize vol (orderly conf) E argv0 files buf s = some out) :
    CatPrints vconf.geom.chunksize vol E files out.ret out.text := by
  have hbounds := vconf.geom.chunksize_bounds
  have hlt : vconf.geom.chunksize < u64Size := Nat.lt_of_le_of_lt hbounds.2 (by decide)
  apply catFiles_spec (by omega) hlt hin hs.inv
  cases files with
  | nil => exact absurd rfl hne
  | cons f files => exact hrun

/-- The file in chunks 2 and 3, and a file that is not there. -/
theorem cat_prints_files_two :
    ∃ out, shcmdShfsCat tinyCache 4096 numbered (orderly tinyCache) quietShell [99]
      [⟨[98], .ok twoChunkFile⟩, ⟨[97], .error 2⟩] Bytes.zeros ⟨tinyInit, fun _ => Bytes.zeros⟩ = some out ∧
    out.text = [2, 2, 2, 2, 2, 2, 3, 3, 3, 3, 3, 3] ++ ascii "a: Could not open: \n" ∧
    CatPrints 4096 numbered quietShell [⟨[98], .ok twoChunkFile⟩, ⟨[97], .error 2⟩] out.ret out.text := by
  have hrun : (shcmdShfsCat tinyCache 4096 numbered (orderly tinyCache) quietShell [99]
      [⟨[98], .ok twoChunkFile⟩, ⟨[97], .error 2⟩] Bytes.zeros ⟨tinyInit, fun _ => Bytes.zeros⟩).any
        (fun out => out.text = [2, 2, 2, 2, 2, 2, 3, 3, 3, 3, 3, 3] ++ ascii "a: Could not open: \n") = true := by
    decide +kernel
  rcases (Option.any_eq_true _ _).1 hrun with ⟨out, hout, htext⟩
  refine ⟨out, hout, of_decide_eq_true htext, cat_prints_files tinyCache tinyConf numbered quietShell [99] _
    Bytes.zeros (by simp) ?_ tinyInit_reachable hout⟩
  intro f hf e he
  rcases List.mem_cons.1 hf with rfl | hf
  · rw [← Except.ok.inj he]
    exact twoChunkFile_contained
  · rw [List.mem_singleton.1 hf] at he
    cases he

end Cat

/-! ## `prefetch` -/

/-- The chunk that holds the byte `b` of the file. -/
def chunkOf (cs : Nat) (e : Hentry) (b : Nat) : Nat := e.chunk + (e.offset + b) / cs

/-- What the reads of the last `n` bytes in front of `left` have to do with the file: they are of its chunks, the
chunks come from behind, and all that hold one of these bytes are among them. -/
structure Prefetched (cs : Nat) (e : Hentry) (left n : Nat) (reads : List (List ChunkCopy)) : Prop where
  within : ∀ copies ∈ reads, ∀ k ∈ copies, ∃ b < left, k.chunk = chunkOf cs e b
  backward : reads.Pairwise fun copies later => ∀ k ∈ copies, ∀ k' ∈ later, k'.chunk ≤ k.chunk
  covers : ∀ b < left, left ≤ b + n → ∃ copies ∈ reads, ∃ k ∈ copies, k.chunk = chunkOf cs e b

section Prefetch

variable {conf : CacheConf} {cs : Nat} {vol : Nat → Bytes} {E : ShellEnv} {e : Hentry} {s s' : Loaded}
  {name : List UInt8}

theorem chunkOf_mono {b b' : Nat} (h : b ≤ b') : chunkOf cs e b ≤ chunkOf cs e b' :=
  Nat.add_le_add_left (Nat.div_le_div_right (Nat.add_le_add_left h _)) _

/-- A piece that is read in front of the rest. -/
theorem Prefetched.behind {left d n : Nat} {copies : List ChunkCopy} {reads : List (List ChunkCopy)}
    (h : Prefetched cs e (left - d) n reads) (hle : d ≤ left)
    (hwithin : ∀ k ∈ copies, ∃ b, left - d ≤ b ∧ b < left ∧ k.chunk = chunkOf cs e b)
    (hcovers : ∀ b, left - d ≤ b → b < left → ∃ k ∈ copies, k.chunk = chunkOf cs e b) :
    Prefetched cs e left (d + n) (copies :: reads) := by
  constructor
  · intro copies' hc k hk
    rcases List.mem_cons.1 hc with rfl | hc
    · rcases hwithin k hk with ⟨b, -, hb, hchunk⟩
      exact ⟨b, hb, hchunk⟩
    · rcases h.within copies' hc k hk with ⟨b, hb, hchunk⟩
      exact ⟨b, by omega, hchunk⟩
  · refine List.pairwise_cons.2 ⟨fun later hl k hk k' hk' => ?_, h.backward⟩
    rcases hwithin k hk with ⟨b, hb, -, hchunk⟩
    rcases h.within later hl k' hk' with ⟨b', hb', hchunk'⟩
    rw [hchunk, hchunk']
    exact chunkOf_mono (by omega)
  · intro b hb hb'
    by_cases hfirst : left - d ≤ b
    · exact ⟨copies, List.mem_cons_self, hcovers b hfirst hb⟩
    · rcases h.covers b (by omega) (by omega) with ⟨copies', hc, hk⟩
      exact ⟨copies', List.mem_cons_of_mem copies hc, hk⟩

end Prefetch

end Minipython.Shfs
