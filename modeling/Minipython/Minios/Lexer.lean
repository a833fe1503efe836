/-
# Minipython.Minios.Lexer — what the lexer of a script reads (minipython.c)

A script is read through a window of 20 bytes. `shfs_file_buf_next_byte` fills the window again when it is used
up, up to the end of the file, and ignores what `shfs_fio_read` returns: a read that fails leaves in the window
what was there before. `LexerState` says where the window stands after any number of calls, whether the reads
fail or not.

The chunk reads behind `shfs_fio_read` succeed or fail by a pattern: each window has an allocation that may
fail, and each chunk of it a read that may. The volume, the new object and the file are arbitrary. Which
byte is wrong after a failed read depends on them, so `lexer_sees_file` asks for all volumes and objects at
once: if a window of the file fails, there is a volume that shows it (`not_seesFile`).

The other condition is one of arithmetic. The end of the window is compared with the size of the file after
a sum in 64 bits, and a file that leaves no room for another window of 20 bytes has no end for the lexer
(`LexerState.at_end`). A file of the theorem is one whose bytes have positions of 64 bits (`ScriptIn`), as
every file inside a volume.
-/
import Minipython.Shfs.FioRead

namespace Minipython.Minios

open Minipython.Lib
open Minipython.Shfs

/-! ## The lexer -/

/-- `sizeof(fb->buf)`. -/
def sizeofBuf : Nat := 20

/-- `mp_lexer_file_buf_t`, without the descriptor. -/
structure LexerFileBuf where
  buf : Bytes
  len : UInt16
  pos : UInt16
  fpos : Nat
  fsize : Nat

/-- The buffer, and how often `shfs_fio_read` was called. -/
structure Lexer where
  fb : LexerFileBuf
  reads : Nat

/-- How the reads end: whether memory for the chunk buffer is there, and which read of a chunk fails. -/
structure ReadPattern where
  mem : Nat → Bool
  fail : Nat → Nat → Option ErrRet

section Code

variable (conf : VolConf) (vol : Nat → Bytes) (p : ReadPattern) (f : Hentry)

/-- The read of the chunk `c` in the turn `j` of the call `n`. -/
def readChunk (n j c : Nat) : ChunkRead :=
  match p.fail n j with
  | some e => .error e
  | none => .ok (vol c)

/-- What the call `n` of `shfs_fio_read` leaves in the buffer. Its result is ignored. -/
def fioRead (n offset len : Nat) (buf : Bytes) : Bytes :=
  (shfsFioRead conf f (p.mem n) (readChunk vol p n) offset len buf).2.buf

/-- How much of the file is read next. -/
def nextLen (fb : LexerFileBuf) : Nat :=
  if fb.fsize < wrap64 (sizeofBuf + fb.fpos) then wrap64 (fb.fsize + u64Size - fb.fpos) else sizeofBuf

/-- Fill the buffer with `rlen` bytes. -/
def refill (rlen : Nat) (s : Lexer) : Lexer where
  fb := {
    buf := fioRead conf vol p f s.reads s.fb.fpos rlen s.fb.buf
    len := UInt16.ofNat rlen
    pos := 0
    fpos := wrap64 (s.fb.fpos + rlen)
    fsize := s.fb.fsize }
  reads := s.reads + 1

/-- `return fb->buf[fb->pos++]`. -/
def takeByte (s : Lexer) : Option UInt8 × Lexer :=
  (some (s.fb.buf s.fb.pos.toNat), { s with fb := { s.fb with pos := s.fb.pos + 1 } })

/-- `shfs_file_buf_next_byte`; `none` is `MP_LEXER_EOF`. -/
def shfsFileBufNextByte (s : Lexer) : Option UInt8 × Lexer :=
  if s.fb.len ≤ s.fb.pos then
    let rlen := nextLen s.fb
    if rlen = 0 then (none, s)
    else takeByte (refill conf vol p f rlen s)
  else takeByte s

/-- `mp_lexer_new_from_file`; `obj` is what the buffer of the new object holds, if there is one. -/
def mpLexerNewFromFile (obj : Option Bytes) (opened : Bool) : Option Lexer :=
  match obj with
  | none => none
  | some buf =>
      if !opened then none
      else
        let fsize := shfsFioSize f
        let rlen := if fsize < sizeofBuf then fsize else sizeofBuf
        some {
          fb := {
            buf := fioRead conf vol p f 0 0 rlen buf
            len := UInt16.ofNat rlen
            pos := 0
            fpos := rlen
            fsize := fsize }
          reads := 1 }

/-- The lexer after `n` bytes were asked for. -/
def lexerAfter (s : Lexer) : Nat → Lexer
  | 0 => s
  | n + 1 => (shfsFileBufNextByte conf vol p f (lexerAfter s n)).2

/-- The byte that the call number `n` delivers. -/
def delivered (s : Lexer) (n : Nat) : Option UInt8 :=
  (shfsFileBufNextByte conf vol p f (lexerAfter conf vol p f s n)).1

/-! ## What it should deliver -/

/-- The byte `k` of the file. -/
def scriptByte (k : Nat) : UInt8 :=
  vol (f.chunk + (f.offset + k) / conf.geom.chunksize) ((f.offset + k) % conf.geom.chunksize)

/-- The file lies in the address space of a volume. -/
structure ScriptIn : Prop where
  bytes : f.offset + shfsFioSize f ≤ u64Size
  chunks : ∀ k < shfsFioSize f, f.chunk + (f.offset + k) / conf.geom.chunksize < u64Size

/-- The reads for the bytes from `20 * i` on do not fail. -/
structure WindowRead (i : Nat) : Prop where
  mem : p.mem i = true
  turns : ∀ j, j * conf.geom.chunksize <
    (f.offset + sizeofBuf * i) % conf.geom.chunksize + min sizeofBuf (shfsFioSize f - sizeofBuf * i) →
    p.fail i j = none

/-- No read of a part of the file fails. -/
def NoneFails : Prop := ∀ i, sizeofBuf * i < shfsFioSize f → WindowRead conf p f i

/-- The bytes up to the end are a prefix of the file, and all of it if no read fails; the end is the end. -/
structure SeesFile (s : Lexer) : Prop where
  prefixed : ∀ n, (∀ m ≤ n, delivered conf vol p f s m ≠ none) →
    n < shfsFioSize f ∧ delivered conf vol p f s n = some (scriptByte conf vol f n)
  whole : NoneFails conf p f →
    (∀ n < shfsFioSize f, delivered conf vol p f s n = some (scriptByte conf vol f n)) ∧
      delivered conf vol p f s (shfsFioSize f) = none
  ends : ∀ n m, delivered conf vol p f s n = none → n ≤ m → delivered conf vol p f s m = none

/-! ## Where the window stands -/

/-- How much the read of the window `i` asks for. -/
def windowLen (i : Nat) : Nat :=
  if shfsFioSize f < wrap64 (sizeofBuf + sizeofBuf * i) then shfsFioSize f - sizeofBuf * i else sizeofBuf

/-- The buffer after `k` reads. -/
def windowBuf (heap : Bytes) : Nat → Bytes
  | 0 => heap
  | k + 1 => fioRead conf vol p f k (sizeofBuf * k) (windowLen f k) (windowBuf heap k)

/-- The lexer has delivered `n` bytes, the last of them from the window `i`. -/
structure LexerState (heap : Bytes) (n i : Nat) (s : Lexer) : Prop where
  fsize : s.fb.fsize = shfsFioSize f
  buf : s.fb.buf = windowBuf conf vol p f heap (i + 1)
  reads : s.reads = i + 1
  len : s.fb.len.toNat = windowLen f i
  fpos : s.fb.fpos = wrap64 (sizeofBuf * i + windowLen f i)
  start : sizeofBuf * i ≤ shfsFioSize f
  pos : sizeofBuf * i + s.fb.pos.toNat = n
  le : s.fb.pos.toNat ≤ windowLen f i

end Code

section Window

variable {conf : VolConf} {vol : Nat → Bytes} {p : ReadPattern} {f : Hentry} {heap : Bytes} {n i : Nat}
  {s : Lexer}

theorem shfsFioSize_lt (f : Hentry) : shfsFioSize f < u64Size := by
  unfold shfsFioSize
  split
  · decide
  · exact f.len_lt

theorem windowLen_le : windowLen f i ≤ sizeofBuf := by
  have hlt := shfsFioSize_lt f
  have hwrap : wrap64 (sizeofBuf + sizeofBuf * i) ≤ sizeofBuf + sizeofBuf * i := Nat.mod_le _ _
  unfold windowLen
  split <;> omega

theorem toNat_windowLen : (UInt16.ofNat (windowLen f i)).toNat = windowLen f i := by
  have hle : windowLen f i ≤ 20 := windowLen_le
  exact Nat.mod_eq_of_lt (by omega)

/-- A sum with the size of the buffer that wraps. -/
theorem wrap64_sum (hn : n < u64Size) (hwrap : u64Size ≤ n + sizeofBuf) :
    wrap64 (sizeofBuf + n) = sizeofBuf + n - u64Size := by
  have hsize : sizeofBuf < u64Size := by decide
  unfold wrap64
  rw [Nat.mod_eq_sub_mod (by omega)]
  exact Nat.mod_eq_of_lt (by omega)

/-- A new lexer has read the first window. -/
theorem lexerState_new (hs : mpLexerNewFromFile conf vol p f (some heap) true = some s) :
    LexerState conf vol p f heap 0 0 s := by
  obtain rfl := Option.some.inj hs
  have hlen : (if shfsFioSize f < sizeofBuf then shfsFioSize f else sizeofBuf) = windowLen f 0 := rfl
  rw [hlen]
  exact {
    fsize := rfl
    buf := rfl
    reads := rfl
    len := toNat_windowLen
    fpos := by
      rw [Nat.mul_zero, Nat.zero_add, wrap64_of_lt (lt_of_le_of_lt windowLen_le (by decide))]
    start := Nat.zero_le _
    pos := rfl
    le := Nat.zero_le _ }

/-- A lexer needs an object and an open file. -/
theorem new_some {obj : Option Bytes} {opened : Bool}
    (hs : mpLexerNewFromFile conf vol p f obj opened = some s) : ∃ heap, obj = some heap ∧ opened = true := by
  cases obj with
  | none => cases hs
  | some heap =>
      cases opened with
      | false => cases hs
      | true => exact ⟨heap, rfl, rfl⟩

/-- What the byte of the window is that comes next. -/
theorem LexerState.take (h : LexerState conf vol p f heap n i s) (hlt : s.fb.pos.toNat < windowLen f i) :
    (takeByte s).1 = some (windowBuf conf vol p f heap (n / sizeofBuf + 1) (n % sizeofBuf)) ∧
      LexerState conf vol p f heap (n + 1) i (takeByte s).2 := by
  have hle := @windowLen_le f i
  have hpos := h.pos
  unfold sizeofBuf at hle hpos
  have hstep : (s.fb.pos + 1).toNat = s.fb.pos.toNat + 1 := by
    rw [UInt16.toNat_add]
    exact Nat.mod_eq_of_lt (by show s.fb.pos.toNat + 1 < 65536; omega)
  constructor
  · have hdiv : n / 20 = i := by omega
    have hmod : n % 20 = s.fb.pos.toNat := by omega
    unfold sizeofBuf
    rw [hdiv, hmod, ← h.buf]
    rfl
  · exact { h with
      pos := by
        show 20 * i + (s.fb.pos + 1).toNat = n + 1
        omega
      le := by
        show (s.fb.pos + 1).toNat ≤ _
        omega }

/-- At the end of a window the position in the file is where it ends. -/
theorem LexerState.fpos_end (h : LexerState conf vol p f heap n i s) (hn : n ≤ shfsFioSize f)
    (hend : s.fb.pos.toNat = windowLen f i) : s.fb.fpos = n := by
  have hlt := shfsFioSize_lt f
  rw [h.fpos, ← hend, h.pos]
  exact wrap64_of_lt (by omega)

/-- In front of the end of the file a window that is used up is a whole one, and the next one follows it. -/
theorem LexerState.next_window (h : LexerState conf vol p f heap n i s) (hn : n < shfsFioSize f)
    (hend : s.fb.pos.toNat = windowLen f i) :
    nextLen s.fb = windowLen f (i + 1) ∧ 0 < windowLen f (i + 1) ∧
      LexerState conf vol p f heap n (i + 1) (refill conf vol p f (nextLen s.fb) s) := by
  have hlt := shfsFioSize_lt f
  have hfpos := h.fpos_end hn.le hend
  have hpos := h.pos
  have hn' : n = sizeofBuf * (i + 1) := by
    have hlen : windowLen f i = sizeofBuf := by
      have hstart := h.start
      rw [hend] at hpos
      unfold windowLen at hpos ⊢
      split at hpos <;> rename_i hif
      · omega
      · exact if_neg hif
    rw [← hpos, hend, hlen, Nat.mul_succ]
  have hlen : nextLen s.fb = windowLen f (i + 1) := by
    unfold nextLen windowLen
    rw [h.fsize, hfpos, ← hn', wrap64_gap hn.le hlt]
  refine ⟨hlen, ?_, ?_⟩
  · unfold windowLen
    rw [← hn']
    split
    · omega
    · decide
  · rw [hlen]
    exact {
      fsize := h.fsize
      buf := by
        show fioRead conf vol p f s.reads s.fb.fpos _ s.fb.buf = _
        rw [h.reads, hfpos, h.buf, hn']
        rfl
      reads := congrArg (· + 1) h.reads
      len := toNat_windowLen
      fpos := by
        show wrap64 (s.fb.fpos + _) = _
        rw [hfpos, hn']
      start := hn' ▸ hn.le
      pos := hn'.symm
      le := Nat.zero_le _ }

/-- The next byte comes from the window, or from the one behind it. -/
theorem LexerState.next (h : LexerState conf vol p f heap n i s) (hn : n < shfsFioSize f) :
    (shfsFileBufNextByte conf vol p f s).1 =
        some (windowBuf conf vol p f heap (n / sizeofBuf + 1) (n % sizeofBuf)) ∧
      ∃ i', LexerState conf vol p f heap (n + 1) i' (shfsFileBufNextByte conf vol p f s).2 := by
  unfold shfsFileBufNextByte
  split
  · rename_i hused
    have hend : s.fb.pos.toNat = windowLen f i :=
      le_antisymm h.le (h.len ▸ UInt16.le_iff_toNat_le.1 hused)
    obtain ⟨hlen, hpos, hnext⟩ := h.next_window hn hend
    dsimp only
    rw [if_neg (by omega)]
    exact ⟨(hnext.take hpos).1, i + 1, (hnext.take hpos).2⟩
  · rename_i hmore
    have hlt : s.fb.pos.toNat < windowLen f i := by
      rw [← h.len]
      exact UInt16.lt_iff_toNat_lt.1 (UInt16.not_le.1 hmore)
    exact ⟨(h.take hlt).1, i, (h.take hlt).2⟩

/-- The lexer in front of the end of the file. -/
theorem lexerState_after (hs : mpLexerNewFromFile conf vol p f (some heap) true = some s)
    (hn : n ≤ shfsFioSize f) : ∃ i, LexerState conf vol p f heap n i (lexerAfter conf vol p f s n) := by
  induction n with
  | zero => exact ⟨0, lexerState_new hs⟩
  | succ n ih =>
      obtain ⟨i, hi⟩ := ih (Nat.le_of_succ_le hn)
      exact (hi.next hn).2

/-- The bytes that are delivered in front of the end. -/
theorem delivered_window (hs : mpLexerNewFromFile conf vol p f (some heap) true = some s)
    (hn : n < shfsFioSize f) : delivered conf vol p f s n =
      some (windowBuf conf vol p f heap (n / sizeofBuf + 1) (n % sizeofBuf)) := by
  obtain ⟨i, hi⟩ := lexerState_after hs hn.le
  exact (hi.next hn).1

/-- At the end of the file the lexer is through, unless the size of the next window wraps. -/
theorem LexerState.at_end (h : LexerState conf vol p f heap (shfsFioSize f) i s) :
    (shfsFioSize f + sizeofBuf < u64Size → shfsFileBufNextByte conf vol p f s = (none, s)) ∧
      (u64Size ≤ shfsFioSize f + sizeofBuf → (shfsFileBufNextByte conf vol p f s).1 ≠ none) := by
  have hlt := shfsFioSize_lt f
  have hsize : sizeofBuf < u64Size := by decide
  unfold shfsFileBufNextByte
  split
  · rename_i hused
    have hend : s.fb.pos.toNat = windowLen f i :=
      le_antisymm h.le (h.len ▸ UInt16.le_iff_toNat_le.1 hused)
    have hnext : nextLen s.fb = if shfsFioSize f < wrap64 (sizeofBuf + shfsFioSize f) then 0 else sizeofBuf := by
      unfold nextLen
      rw [h.fsize, h.fpos_end le_rfl hend, wrap64_gap le_rfl hlt, Nat.sub_self]
    dsimp only
    constructor
    · intro hfit
      have hlt' : shfsFioSize f < sizeofBuf + shfsFioSize f := Nat.lt_add_of_pos_left (by decide)
      rw [wrap64_of_lt (by omega), if_pos hlt'] at hnext
      exact if_pos hnext
    · intro hwrap
      rw [wrap64_sum hlt hwrap, if_neg (by omega)] at hnext
      rw [hnext, if_neg (by decide)]
      exact Option.some_ne_none _
  · rename_i hmore
    refine ⟨fun hfit => ?_, fun _ => Option.some_ne_none _⟩
    have hpos : s.fb.pos.toNat < windowLen f i := by
      rw [← h.len]
      exact UInt16.lt_iff_toNat_lt.1 (UInt16.not_le.1 hmore)
    have hn := h.pos
    have hstart := h.start
    unfold windowLen at hpos
    rw [wrap64_of_lt (by omega)] at hpos
    split at hpos <;> omega

/-- Once the end has been reached the lexer stays there. -/
theorem delivered_behind (hs : mpLexerNewFromFile conf vol p f (some heap) true = some s)
    (hfit : shfsFioSize f + sizeofBuf < u64Size) (hn : shfsFioSize f ≤ n) :
    delivered conf vol p f s n = none := by
  obtain ⟨i, hi⟩ := lexerState_after hs le_rfl
  have hstop := hi.at_end.1 hfit
  have hstay : lexerAfter conf vol p f s n = lexerAfter conf vol p f s (shfsFioSize f) := by
    induction n, hn using Nat.le_induction with
    | base => rfl
    | succ n _ ih =>
        show (shfsFileBufNextByte conf vol p f (lexerAfter conf vol p f s n)).2 = _
        rw [ih, hstop]
  unfold delivered
  rw [hstay, hstop]

end Window

/-! ## What the reads leave in the window -/

section Reads

variable {conf : VolConf} {vol : Nat → Bytes} {p : ReadPattern} {f : Hentry} {heap buf : Bytes} {n i k : Nat}

/-- A window that begins in the file is let pass by the check of the range. -/
theorem fioRead_passes (hi : sizeofBuf * i < shfsFioSize f) : fioRead conf vol p f i (sizeofBuf * i)
    (windowLen f i) buf = if p.mem i then
      (fioLoop conf.geom.chunksize (readChunk vol p i) (windowLen f i) 0
        (shfsVolchkFoff conf.geom.chunksize f (sizeofBuf * i))
        (shfsVolchkoffFoff conf.geom.chunksize f (sizeofBuf * i)) 0 (windowLen f i) ⟨buf, []⟩).2.buf
      else buf := by
  have hlink : f.isLink = false := by
    by_contra hlink
    unfold shfsFioSize at hi
    rw [if_pos (by simpa using hlink)] at hi
    exact absurd hi (Nat.not_lt_zero _)
  have hlen : shfsFioSize f = f.len := by
    unfold shfsFioSize
    rw [hlink]
    rfl
  have hrange : sizeofBuf * i + windowLen f i ≤ f.len ∨ RangeWraps f (sizeofBuf * i) (windowLen f i) := by
    rw [hlen] at hi
    unfold windowLen RangeWraps
    rw [hlen]
    by_cases hwrap : sizeofBuf + sizeofBuf * i < u64Size
    · rw [wrap64_of_lt hwrap]
      split <;> omega
    · have hlt := f.len_lt
      have hsize : sizeofBuf < u64Size := by decide
      rw [wrap64_sum (by omega) (by omega), if_neg (by omega)]
      exact Or.inr ⟨by omega, by omega⟩
  unfold fioRead shfsFioRead
  rw [fioReader_passes hlink (lt_of_le_of_lt windowLen_le (by decide)) f.len_lt hrange]
  split <;> rfl

/-- Where the byte `k` of a window is stored. -/
theorem window_address (hin : ScriptIn conf f) (hk : sizeofBuf * i + k < shfsFioSize f) :
    wrap64 (shfsVolchkFoff conf.geom.chunksize f (sizeofBuf * i) +
        (shfsVolchkoffFoff conf.geom.chunksize f (sizeofBuf * i) + k) / conf.geom.chunksize) =
      f.chunk + (f.offset + (sizeofBuf * i + k)) / conf.geom.chunksize ∧
    (shfsVolchkoffFoff conf.geom.chunksize f (sizeofBuf * i) + k) % conf.geom.chunksize =
      (f.offset + (sizeofBuf * i + k)) % conf.geom.chunksize := by
  have hcs : 0 < conf.geom.chunksize := lt_of_lt_of_le (by decide) conf.geom.chunksize_bounds.1
  have hbytes := hin.bytes
  have hchunk := hin.chunks _ hk
  have hpos : f.offset + (sizeofBuf * i + k) = f.offset + sizeofBuf * i + k := (Nat.add_assoc _ _ _).symm
  have hfirst : wrap64 (f.offset + sizeofBuf * i) = f.offset + sizeofBuf * i := wrap64_of_lt (by omega)
  unfold shfsVolchkFoff shfsVolchkoffFoff
  rw [hfirst, wrap64_add]
  rw [hpos] at hchunk ⊢
  generalize f.offset + sizeofBuf * i = x at hchunk ⊢
  have hdiv : (x + k) / conf.geom.chunksize =
      x / conf.geom.chunksize + (x % conf.geom.chunksize + k) / conf.geom.chunksize := by
    calc (x + k) / conf.geom.chunksize
        = (conf.geom.chunksize * (x / conf.geom.chunksize) + (x % conf.geom.chunksize + k)) /
            conf.geom.chunksize := by rw [← Nat.add_assoc, Nat.div_add_mod]
      _ = _ := Nat.mul_add_div hcs _ _
  have hsum : x / conf.geom.chunksize + f.chunk + (x % conf.geom.chunksize + k) / conf.geom.chunksize =
      f.chunk + (x + k) / conf.geom.chunksize := by omega
  rw [hsum]
  exact ⟨wrap64_of_lt hchunk, Nat.mod_add_mod x conf.geom.chunksize k⟩

/-- A whole window is asked for up to the end of the file, while sizes do not wrap. -/
theorem windowLen_fit (hfit : shfsFioSize f + sizeofBuf < u64Size) (hi : sizeofBuf * i < shfsFioSize f) :
    windowLen f i = min sizeofBuf (shfsFioSize f - sizeofBuf * i) := by
  unfold windowLen
  rw [wrap64_of_lt (by omega)]
  split <;> omega

/-- A window has at least the bytes that the file has left for it. -/
theorem windowLen_ge (hi : sizeofBuf * i < shfsFioSize f) :
    min sizeofBuf (shfsFioSize f - sizeofBuf * i) ≤ windowLen f i := by
  unfold windowLen
  split <;> omega

theorem readChunk_ok {j c : Nat} {chk : Bytes} (h : readChunk vol p n j c = .ok chk) : chk = vol c := by
  unfold readChunk at h
  split at h
  · cases h
  · exact (Except.ok.inj h).symm

theorem readChunk_fail {j c : Nat} {e : ErrRet} (h : p.fail n j = some e) :
    readChunk vol p n j c = .error e := by
  unfold readChunk
  rw [h]

theorem voloff_lt (conf : VolConf) (f : Hentry) (foff : Nat) :
    shfsVolchkoffFoff conf.geom.chunksize f foff < conf.geom.chunksize :=
  Nat.mod_lt _ (lt_of_lt_of_le (by decide) conf.geom.chunksize_bounds.1)

theorem chunksize_lt (conf : VolConf) : conf.geom.chunksize < u64Size :=
  lt_of_le_of_lt conf.geom.chunksize_bounds.2 (by decide)

theorem voloff_eq (hin : ScriptIn conf f) (hi : sizeofBuf * i < shfsFioSize f) :
    shfsVolchkoffFoff conf.geom.chunksize f (sizeofBuf * i) =
      (f.offset + sizeofBuf * i) % conf.geom.chunksize := by
  have hbytes := hin.bytes
  unfold shfsVolchkoffFoff
  rw [wrap64_of_lt (by omega)]

/-- A read that does not fail brings the bytes of the file. -/
theorem fioRead_fresh (hin : ScriptIn conf f) (hfit : shfsFioSize f + sizeofBuf < u64Size)
    (hread : WindowRead conf p f i) (hk : sizeofBuf * i + k < shfsFioSize f) (hk' : k < sizeofBuf) :
    fioRead conf vol p f i (sizeofBuf * i) (windowLen f i) buf k =
      scriptByte conf vol f (sizeofBuf * i + k) := by
  have hi : sizeofBuf * i < shfsFioSize f := by omega
  rw [fioRead_passes hi, if_pos hread.mem]
  have hok : ∀ j, j * conf.geom.chunksize < shfsVolchkoffFoff conf.geom.chunksize f (sizeofBuf * i) +
      windowLen f i → ∀ c, readChunk vol p i (0 + j) c = .ok (vol c) := fun j hj c => by
    rw [voloff_eq hin hi, windowLen_fit hfit hi] at hj
    unfold readChunk
    rw [Nat.zero_add, hread.turns j hj]
  have hret := @fioLoop_ret conf.geom.chunksize (readChunk vol p i) (windowLen f i) 0 _ _ 0 _ ⟨buf, []⟩
    (fun j hj => ⟨_, hok j hj _⟩) (voloff_lt conf f (sizeofBuf * i)) (chunksize_lt conf)
    (wrap64_lt (wrap64 (f.offset + sizeofBuf * i) / conf.geom.chunksize + f.chunk))
  have hbuf := (@fioLoop_buf conf.geom.chunksize (readChunk vol p i) (windowLen f i) 0 _ _ 0 _ ⟨buf, []⟩ vol
    (fun j chk _ hj b _ => by rw [readChunk_ok hj]) (voloff_lt conf f (sizeofBuf * i)) (chunksize_lt conf)
    (wrap64_lt _) le_rfl hret).1 k (by
      have hge := windowLen_ge hi
      omega)
  obtain ⟨haddr, hrest⟩ := window_address hin hk
  rw [Nat.zero_add] at hbuf
  exact hbuf.trans (congrArg₂ vol haddr hrest)

/-- However a read ends, a byte of the window is what it was or a byte of the file. -/
theorem fioRead_either (hin : ScriptIn conf f) (hi : sizeofBuf * (i + 1) ≤ shfsFioSize f) (k : Nat) :
    fioRead conf vol p f i (sizeofBuf * i) (windowLen f i) buf k = buf k ∨
      k < sizeofBuf ∧ fioRead conf vol p f i (sizeofBuf * i) (windowLen f i) buf k =
        scriptByte conf vol f (sizeofBuf * i + k) := by
  rw [Nat.mul_succ] at hi
  have hsize : 0 < sizeofBuf := by decide
  rw [fioRead_passes (by omega)]
  split
  · have hbyte := @fioLoop_either conf.geom.chunksize (readChunk vol p i) (windowLen f i) 0 _ _ 0
      (windowLen f i) ⟨buf, []⟩ vol (fun j chk hj b _ => by rw [readChunk_ok hj])
      (voloff_lt conf f (sizeofBuf * i)) (chunksize_lt conf)
      (wrap64_lt (wrap64 (f.offset + sizeofBuf * i) / conf.geom.chunksize + f.chunk)) k
    rcases hbyte with hold | ⟨d, hd, hk, hnew⟩
    · exact Or.inl hold
    · rw [Nat.zero_add] at hk
      subst hk
      have hlt := lt_of_lt_of_le hd windowLen_le
      obtain ⟨haddr, hrest⟩ := window_address hin (show sizeofBuf * i + k < shfsFioSize f by omega)
      exact Or.inr ⟨hlt, hnew.trans (congrArg₂ vol haddr hrest)⟩
  · exact Or.inl rfl

/-- A window whose read fails has a byte of the file that the read does not bring. -/
theorem fioRead_stale (hin : ScriptIn conf f) (hi : sizeofBuf * i < shfsFioSize f)
    (hfail : ¬WindowRead conf p f i) : ∃ k < sizeofBuf, sizeofBuf * i + k < shfsFioSize f ∧ ∀ vol buf,
      fioRead conf vol p f i (sizeofBuf * i) (windowLen f i) buf k = buf k := by
  cases hmem : p.mem i with
  | false =>
      refine ⟨0, by decide, hi, fun vol buf => ?_⟩
      rw [fioRead_passes hi, hmem]
      rfl
  | true =>
      have hturn : ∃ j, j * conf.geom.chunksize < (f.offset + sizeofBuf * i) % conf.geom.chunksize +
          min sizeofBuf (shfsFioSize f - sizeofBuf * i) ∧ p.fail i j ≠ none := by
        by_contra hno
        exact hfail ⟨hmem, fun j hj => by_contra fun hne => hno ⟨j, hj, hne⟩⟩
      obtain ⟨j, hj, hne⟩ := hturn
      obtain ⟨e, he⟩ := Option.ne_none_iff_exists'.1 hne
      have hsize : 0 < sizeofBuf := by decide
      have hge := windowLen_ge hi
      have hoff := voloff_eq hin hi
      refine ⟨j * conf.geom.chunksize - (f.offset + sizeofBuf * i) % conf.geom.chunksize, by omega, by omega,
        fun vol buf => ?_⟩
      rw [fioRead_passes hi, hmem, if_pos rfl]
      have hstale := @fioLoop_stale conf.geom.chunksize (readChunk vol p i) (windowLen f i) 0
        (shfsVolchkFoff conf.geom.chunksize f (sizeofBuf * i)) _ 0 (windowLen f i) ⟨buf, []⟩ e j
        (j * conf.geom.chunksize - (f.offset + sizeofBuf * i) % conf.geom.chunksize)
        (readChunk_fail (by rw [Nat.zero_add]; exact he)) (by rw [hoff]; omega) (by rw [hoff]; omega)
        (voloff_lt conf f (sizeofBuf * i)) (chunksize_lt conf) (wrap64_lt _)
      rw [Nat.zero_add] at hstale
      exact hstale

/-! ## What is delivered -/

/-- While no read fails the window holds its part of the file. -/
theorem windowBuf_fresh (hin : ScriptIn conf f) (hfit : shfsFioSize f + sizeofBuf < u64Size)
    (hnone : NoneFails conf p f) (hn : n < shfsFioSize f) :
    windowBuf conf vol p f heap (n / sizeofBuf + 1) (n % sizeofBuf) = scriptByte conf vol f n := by
  have hsum := Nat.div_add_mod n sizeofBuf
  have hfresh : windowBuf conf vol p f heap (n / sizeofBuf + 1) (n % sizeofBuf) =
      scriptByte conf vol f (sizeofBuf * (n / sizeofBuf) + n % sizeofBuf) :=
    fioRead_fresh hin hfit (hnone (n / sizeofBuf) (by omega)) (by omega) (Nat.mod_lt n (by decide))
  rw [hsum] at hfresh
  exact hfresh

theorem seesFile_of_reads {s : Lexer} (hin : ScriptIn conf f) (hfit : shfsFioSize f + sizeofBuf < u64Size)
    (hnone : NoneFails conf p f) (hs : mpLexerNewFromFile conf vol p f (some heap) true = some s) :
    SeesFile conf vol p f s := by
  have hbytes : ∀ n < shfsFioSize f, delivered conf vol p f s n = some (scriptByte conf vol f n) :=
    fun n hn => by rw [delivered_window hs hn, windowBuf_fresh hin hfit hnone hn]
  have hend : ∀ n, shfsFioSize f ≤ n → delivered conf vol p f s n = none :=
    fun n hn => delivered_behind hs hfit hn
  constructor
  case prefixed =>
      intro n hall
      have hn : n < shfsFioSize f := by
        by_contra hge
        exact hall n le_rfl (hend n (not_lt.1 hge))
      exact ⟨hn, hbytes n hn⟩
  case whole => exact fun _ => ⟨hbytes, hend _ le_rfl⟩
  case ends =>
      intro n m hn hm
      apply hend
      by_contra hlt
      rw [hbytes n (by omega)] at hn
      cases hn

/-- A volume with zeros and, where the byte `x` of the file is, a one. -/
def markVol (conf : VolConf) (f : Hentry) (x : Nat) : Nat → Bytes := fun c b =>
  if c = f.chunk + (f.offset + x) / conf.geom.chunksize ∧ b = (f.offset + x) % conf.geom.chunksize then 1 else 0

theorem scriptByte_mark (x y : Nat) :
    scriptByte conf (markVol conf f x) f y = if y = x then 1 else 0 := by
  unfold scriptByte markVol
  by_cases hy : y = x
  · subst hy
    rw [if_pos ⟨rfl, rfl⟩, if_pos rfl]
  · rw [if_neg hy, if_neg]
    rintro ⟨hdiv, hmod⟩
    have hx := Nat.div_add_mod (f.offset + x) conf.geom.chunksize
    have hy' := Nat.div_add_mod (f.offset + y) conf.geom.chunksize
    rw [Nat.add_left_cancel hdiv, hmod] at hy'
    omega

/-- In front of the mark all windows are zero. -/
theorem windowBuf_mark (hin : ScriptIn conf f) {x j : Nat} (hx : sizeofBuf * j ≤ x) (hlt : x < shfsFioSize f)
    (k : Nat) : windowBuf conf (markVol conf f x) p f Bytes.zeros j k = 0 := by
  induction j generalizing k with
  | zero => rfl
  | succ j ih =>
      have hj : sizeofBuf * j ≤ x := le_trans (Nat.mul_le_mul_left _ (Nat.le_succ j)) hx
      have hbyte := @fioRead_either conf (markVol conf f x) p f
        (windowBuf conf (markVol conf f x) p f Bytes.zeros j) j hin (hx.trans hlt.le) k
      rcases hbyte with hold | ⟨hk, hnew⟩
      · exact hold.trans (ih hj k)
      · refine hnew.trans ?_
        rw [scriptByte_mark, if_neg]
        rw [Nat.mul_succ] at hx
        omega

/-- A read that fails lets the lexer deliver what is not in the file. -/
theorem not_seesFile (hin : ScriptIn conf f) (hi : sizeofBuf * i < shfsFioSize f)
    (hfail : ¬WindowRead conf p f i) : ∃ vol heap s,
      mpLexerNewFromFile conf vol p f (some heap) true = some s ∧ ¬SeesFile conf vol p f s := by
  obtain ⟨k, hk, hlt, hstale⟩ := fioRead_stale hin hi hfail
  refine ⟨markVol conf f (sizeofBuf * i + k), Bytes.zeros, _, rfl, fun hsees => ?_⟩
  have hdiv : (sizeofBuf * i + k) / sizeofBuf = i := by
    rw [Nat.mul_add_div (by decide), Nat.div_eq_of_lt hk, Nat.add_zero]
  have hmod : (sizeofBuf * i + k) % sizeofBuf = k := by
    rw [Nat.mul_add_mod, Nat.mod_eq_of_lt hk]
  have hbyte := (hsees.prefixed _ fun m hm => by
    rw [delivered_window rfl (lt_of_le_of_lt hm hlt)]
    exact Option.some_ne_none _).2
  rw [delivered_window rfl hlt, hdiv, hmod, scriptByte_mark, if_pos rfl] at hbyte
  have hzero := @windowBuf_mark conf p f hin _ i (Nat.le_add_right (sizeofBuf * i) k) hlt k
  have hread := hstale (markVol conf f (sizeofBuf * i + k))
    (windowBuf conf (markVol conf f (sizeofBuf * i + k)) p f Bytes.zeros i)
  have hone : windowBuf conf (markVol conf f (sizeofBuf * i + k)) p f Bytes.zeros (i + 1) k = 1 :=
    Option.some.inj hbyte
  rw [hzero] at hread
  exact absurd (hread.symm.trans hone) (by decide)

end Reads

/-- A lexer sees its file, whatever the file and the new object hold, exactly if no read of a part of the
file fails and the size of the file leaves room for another window in 64 bits. Seeing the file is: what is
delivered is a part of it from its start, all of it if no read fails, and behind the end there is only the
end. -/
theorem lexer_sees_file (conf : VolConf) (p : ReadPattern) (f : Hentry) (hin : ScriptIn conf f) :
    (∀ vol obj opened s, mpLexerNewFromFile conf vol p f obj opened = some s → SeesFile conf vol p f s) ↔
      NoneFails conf p f ∧ shfsFioSize f + sizeofBuf < u64Size := by
  constructor
  · intro hall
    have hnone : NoneFails conf p f := by
      intro i hi
      by_contra hfail
      obtain ⟨vol, heap, s, hs, hno⟩ := not_seesFile hin hi hfail
      exact hno (hall vol _ _ s hs)
    refine ⟨hnone, ?_⟩
    by_contra hwrap
    obtain ⟨i, hi⟩ := @lexerState_after conf (fun _ => Bytes.zeros) p f Bytes.zeros _ _ rfl le_rfl
    exact hi.at_end.2 (not_lt.1 hwrap) ((hall _ (some Bytes.zeros) true _ rfl).whole hnone).2
  · rintro ⟨hnone, hfit⟩ vol obj opened s hs
    obtain ⟨heap, rfl, rfl⟩ := new_some hs
    exact seesFile_of_reads hin hfit hnone hs

/-- A script of 30 bytes: a full window over the end of chunk 2, and ten bytes more. -/
def twoWindows : Hentry := Bytes.putLe (Bytes.putLe (Bytes.putLe Bytes.zeros 64 8 2) 72 8 4090) 80 8 30

theorem scriptIn_twoWindows : ScriptIn tinyConf twoWindows where
  bytes := by decide
  chunks := by decide

/-- Reads that do not fail. -/
def goodReads : ReadPattern := ⟨fun _ => true, fun _ _ => none⟩

/-- A script of two windows in two chunks is seen: its byte 5 is in chunk 2, and its last one in chunk 3. -/
theorem lexer_sees_file_two : ∃ s,
    mpLexerNewFromFile tinyConf (fun c _ => UInt8.ofNat c) goodReads twoWindows (some fun _ => 65) true = some s ∧
      delivered tinyConf (fun c _ => UInt8.ofNat c) goodReads twoWindows s 5 = some 2 ∧
      delivered tinyConf (fun c _ => UInt8.ofNat c) goodReads twoWindows s 29 = some 3 ∧
      SeesFile tinyConf (fun c _ => UInt8.ofNat c) goodReads twoWindows s := by
  have hnone : NoneFails tinyConf goodReads twoWindows := fun _ _ => ⟨rfl, fun _ _ => rfl⟩
  have hall := (lexer_sees_file tinyConf goodReads twoWindows scriptIn_twoWindows).2 ⟨hnone, by decide⟩
  have hsees := hall (fun c _ => UInt8.ofNat c) (some fun _ => 65) true _ rfl
  have hbyte := (hsees.whole hnone).1
  exact ⟨_, rfl, hbyte 5 (by decide), hbyte 29 (by decide), hsees⟩

/-- Reads without memory for the chunk buffer. -/
def noMemReads : ReadPattern := ⟨fun _ => false, fun _ _ => none⟩

/-- The file of one byte, which is zero: the lexer delivers what its new object held. -/
theorem lexer_delivers_heap : ∃ s,
    mpLexerNewFromFile tinyConf (fun _ => Bytes.zeros) noMemReads oneByte (some fun _ => 65) true = some s ∧
      delivered tinyConf (fun _ => Bytes.zeros) noMemReads oneByte s 0 = some 65 ∧
      ¬SeesFile tinyConf (fun _ => Bytes.zeros) noMemReads oneByte s := by
  refine ⟨_, rfl, by decide +kernel, fun hsees => ?_⟩
  have hbyte := (hsees.prefixed 0 (by decide +kernel)).2
  exact absurd hbyte (by decide +kernel)

end Minipython.Minios
