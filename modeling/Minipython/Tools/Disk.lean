/-
# Minipython.Tools.Disk — the bytes of the members under chunk I/O (tools_common.c, sync_io_chunk)

`chunkAt` is what the members hold at a chunk. Every transfer can fail, and one to an offset that is negative
as an `off_t` always does. A transfer that does not fail returns the number of bytes that it has moved, which
may be smaller than what was asked for. `sync_io_chunk` tests for the error only: it goes on with the next
stripe, and so a write that was cut short leaves old bytes in the chunk, and a read leaves them in the buffer.

Whatever the numbers are, a write to a chunk changes nothing but that chunk (`write_other`, `Frame`). Where they
are complete (`Transfers.Complete`), a write changes the chunk stripe by stripe in order (`writeChunk_spec`), and
a read returns what it holds (`readChunk_spec`).
-/
import Mathlib.Data.List.Basic
import Minipython.Tools.Storage

namespace Minipython.Tools

open Minipython.Lib
open Minipython.Shfs

/-- The bytes of the members at their offsets. -/
abbrev Members := Nat → Int → UInt8

/-- `write` of one transfer, from the buffer of the call. -/
def writeBytes (buf : Bytes) (d : Members) (r : IoRequest) : Members := fun m o =>
  if m = r.member ∧ r.start ≤ o ∧ o < r.start + r.len then buf (r.buf + (o - r.start).toNat)
  else d m o

/-- `read` of one transfer, into the buffer of the call. -/
def readBytes (d : Members) (buf : Bytes) (r : IoRequest) : Bytes := fun k =>
  if r.buf ≤ k ∧ k < r.buf + r.len then d r.member (r.start + (k - r.buf : Nat)) else buf k

/-- What the transfers return: an error, or how many bytes were moved. -/
abbrev Transfers := IoRequest → Option Nat

namespace Transfers

/-- The seek and the transfer return no error. `lseek` refuses a negative offset. -/
def ok (io : Transfers) (r : IoRequest) : Bool := decide (0 ≤ r.start) && (io r).isSome

/-- The part of a request that is transferred. -/
def moved (io : Transfers) (r : IoRequest) : IoRequest := { r with len := min ((io r).getD 0) r.len }

/-- No transfer is cut short. -/
def Complete (io : Transfers) : Prop := ∀ r n, io r = some n → r.len ≤ n

/-- Transfers that all succeed. -/
def all : Transfers := fun r => some r.len

theorem all_complete : all.Complete := fun _ _ h => Nat.le_of_eq (Option.some.inj h)

theorem Complete.moved {io : Transfers} (h : io.Complete) {r : IoRequest} (hok : io.ok r = true) :
    io.moved r = r := by
  obtain ⟨n, hn⟩ := Option.isSome_iff_exists.1 (Bool.and_eq_true_iff.1 hok).2
  unfold Transfers.moved
  rw [hn, Option.getD_some, Nat.min_eq_right (h r n hn)]

/-- Transfers that are made as a whole or fail, as those of a block device. -/
def whole (io : IoRequest → Bool) : Transfers := fun r => if io r then some r.len else none

theorem whole_complete (io : IoRequest → Bool) : (whole io).Complete := by
  intro r n h
  unfold whole at h
  split at h
  · exact Nat.le_of_eq (Option.some.inj h)
  · cases h

end Transfers

/-- The loop of `sync_io_chunk` with `owrite`. -/
def writeStripes (buf : Bytes) (io : Transfers) : List IoRequest → Members → Bool × Members
  | [], d => (true, d)
  | r :: rs, d =>
      if io.ok r then writeStripes buf io rs (writeBytes buf d (io.moved r)) else (false, d)

/-- The loop of `sync_io_chunk` without `owrite`; `none` is an error. -/
def readStripes (d : Members) (io : Transfers) : List IoRequest → Bytes → Option Bytes
  | [], buf => some buf
  | r :: rs, buf => if io.ok r then readStripes d io rs (readBytes d buf (io.moved r)) else none

/-- `sync_write_chunk`. -/
def syncWriteChunk (g : Striping) (d : Members) (start len : Nat) (buf : Bytes)
    (io : Transfers) : Bool × Members :=
  writeStripes buf io (syncIoRequests g start len) d

/-- `sync_read_chunk`. -/
def syncReadChunk (g : Striping) (d : Members) (start len : Nat) (buf : Bytes)
    (io : Transfers) : Option Bytes :=
  readStripes d io (syncIoRequests g start len) buf

/-! ## What the members hold at a chunk -/

/-- The offset of byte `k` of chunk `c` on its member. -/
def offsetOf (g : Striping) (c k : Nat) : Int :=
  offT (strpOf g c k / g.nbMembers * g.stripesize) + (k % g.stripesize : Nat)

/-- The byte `k` of chunk `c`. -/
def chunkAt (g : Striping) (d : Members) (c k : Nat) : UInt8 :=
  d (strpOf g c k % g.nbMembers) (offsetOf g c k)

/-- The members hold the same bytes at a chunk. -/
def SameAt (g : Striping) (d d' : Members) (c : Nat) : Prop :=
  ∀ k < g.chunkLen, chunkAt g d c k = chunkAt g d' c k

/-- The transfer of the stripe `i` of a chunk. -/
def stripeRequest (g : Striping) (c i : Nat) : IoRequest where
  member := (g.firstStrp c + i) % g.nbMembers
  start := offT ((g.firstStrp c + i) / g.nbMembers * g.stripesize)
  len := g.stripesize
  buf := i * g.stripesize

theorem forStripes_range {ρ : Type} (stripesize : Nat) (body : Nat → Nat → ρ) (n strp ptr : Nat) :
    forStripes stripesize body n strp ptr =
      (List.range n).map fun i => body (strp + i) (ptr + i * stripesize) := by
  induction n with
  | zero => rfl
  | succ n ih =>
      rw [forStripes_append, ih, List.range_succ, List.map_append]
      rfl

section Chunk

variable {g : Striping} {d d' : Members} {c c' k i : Nat} {buf : Bytes} {io : Transfers}

/-- All stripes of a chunk that fits end at byte `2 ^ 64` or before. -/
theorem stripe_fits (h : g.Fits c 1) (hi : i < g.perChunk) :
    ((g.firstStrp c + i) / g.nbMembers + 1) * g.stripesize ≤ u64Size := by
  have hle : g.firstStrp c + i ≤ g.firstStrp (c + 1) - 1 := by
    rw [g.firstStrp_add, Nat.one_mul]
    omega
  exact le_trans (Nat.mul_le_mul_right g.stripesize
    (Nat.succ_le_succ (Nat.div_le_div_right (c := g.nbMembers) hle))) h

/-- The transfers of a chunk in order. -/
theorem syncIoRequests_eq (h : g.Fits c 1) :
    syncIoRequests g c 1 = (List.range g.perChunk).map (stripeRequest g c) := by
  have hcount : g.firstStrp c + 1 * g.perChunk - g.firstStrp c = g.perChunk := by omega
  unfold syncIoRequests
  rw [Striping.Fits.strpRange g h]
  simp only [hcount, forStripes_range, Nat.zero_add]
  refine List.map_congr_left fun i hi => ?_
  have hlt := (g.strp_lt (stripe_fits h (List.mem_range.1 hi))).1
  unfold syncIoStripe stripeRequest
  rw [wrap64_of_lt hlt]

/-- A byte of a chunk lies in one transfer: that of its stripe. -/
theorem covers_iff (hc : g.Fits c 1) (hc' : g.Fits c' 1) (hi : i < g.perChunk) (hk : k < g.chunkLen) :
    (strpOf g c' k % g.nbMembers = (stripeRequest g c i).member ∧
        (stripeRequest g c i).start ≤ offsetOf g c' k ∧
        offsetOf g c' k < (stripeRequest g c i).start + (stripeRequest g c i).len) ↔
      c' = c ∧ k / g.stripesize = i := by
  have hs := g.stripesize_pos
  constructor
  · rintro ⟨hm, hlo, hhi⟩
    obtain ⟨j, hj⟩ := Int.eq_ofNat_of_zero_le (Int.sub_nonneg.2 hlo)
    have hjs : j < g.stripesize := by
      have : (stripeRequest g c i).len = g.stripesize := rfl
      omega
    have heq : offT (strpOf g c' k / g.nbMembers * g.stripesize) + (k % g.stripesize : Nat) =
        offT ((g.firstStrp c + i) / g.nbMembers * g.stripesize) + (j : Nat) := by
      have h1 : offsetOf g c' k = (stripeRequest g c i).start + j := by omega
      exact h1
    obtain ⟨hq, -⟩ := offT_inj hs (strpOf_fits hc' hk) (stripe_fits hc hi) (Nat.mod_lt k hs) hjs heq
    have hdiv : i * g.stripesize / g.stripesize = i := Nat.mul_div_cancel i hs
    have hlen : i * g.stripesize < g.chunkLen := Nat.mul_lt_mul_of_pos_right hi hs
    have hstrp : strpOf g c' k = strpOf g c (i * g.stripesize) := by
      have h1 : strpOf g c (i * g.stripesize) = g.firstStrp c + i := by
        rw [strpOf, hdiv]
      rw [h1, ← Nat.div_add_mod (strpOf g c' k) g.nbMembers, hq, hm]
      exact Nat.div_add_mod _ _
    obtain ⟨hcc, hkk⟩ := strpOf_inj hk hlen hstrp
    exact ⟨hcc, hkk.trans hdiv⟩
  · rintro ⟨rfl, rfl⟩
    have hmod := Nat.mod_lt k hs
    refine ⟨rfl, ?_, ?_⟩
    · show offT _ ≤ offT _ + _
      unfold strpOf
      omega
    · show offT _ + _ < offT _ + (g.stripesize : Int)
      unfold strpOf
      omega

/-- One stripe is written. -/
theorem chunkAt_writeBytes (hc : g.Fits c 1) (hc' : g.Fits c' 1) (hi : i < g.perChunk)
    (hk : k < g.chunkLen) : chunkAt g (writeBytes buf d (stripeRequest g c i)) c' k =
      if c' = c ∧ k / g.stripesize = i then buf k else chunkAt g d c' k := by
  have hcov := covers_iff hc hc' hi hk
  unfold chunkAt writeBytes
  split
  · rename_i h
    obtain ⟨rfl, rfl⟩ := hcov.1 h
    rw [if_pos ⟨rfl, rfl⟩]
    have hoff : offsetOf g c' k - (stripeRequest g c' (k / g.stripesize)).start =
        (k % g.stripesize : Nat) := by
      show offT _ + _ - offT _ = _
      unfold strpOf
      omega
    rw [hoff, Int.toNat_natCast]
    show buf (k / g.stripesize * g.stripesize + k % g.stripesize) = _
    rw [Nat.mul_comm, Nat.div_add_mod]
  · rename_i h
    rw [if_neg fun hck => h (hcov.2 hck)]

/-- The first `n` stripes are written. -/
theorem chunkAt_writes (hc : g.Fits c 1) (hc' : g.Fits c' 1) (hk : k < g.chunkLen) {n : Nat}
    (hn : n ≤ g.perChunk) :
    chunkAt g (((List.range n).map (stripeRequest g c)).foldl (writeBytes buf) d) c' k =
      if c' = c ∧ k / g.stripesize < n then buf k else chunkAt g d c' k := by
  induction n with
  | zero => simp
  | succ n ih =>
      rw [List.range_succ, List.map_append, List.foldl_append]
      show chunkAt g (writeBytes buf _ (stripeRequest g c n)) c' k = _
      rw [chunkAt_writeBytes hc hc' hn hk, ih (by omega)]
      by_cases hcc : c' = c
      · by_cases heq : k / g.stripesize = n
        · rw [if_pos ⟨hcc, heq⟩, if_pos ⟨hcc, by omega⟩]
        · rw [if_neg fun h => heq h.2]
          congr 1
          simp only [eq_iff_iff]
          constructor
          · exact fun h => ⟨h.1, by omega⟩
          · exact fun h => ⟨h.1, by omega⟩
      · rw [if_neg fun h => hcc h.1, if_neg fun h => hcc h.1, if_neg fun h => hcc h.1]

/-- A write goes through its transfers in order, as far as they succeed. -/
theorem writeStripes_spec (buf : Bytes) (io : Transfers) (rs : List IoRequest) (d : Members) :
    ∃ n ≤ rs.length, (writeStripes buf io rs d).2 =
        (rs.take n).foldl (fun d r => writeBytes buf d (io.moved r)) d ∧
      (∀ r ∈ rs.take n, io.ok r = true) ∧
      ((writeStripes buf io rs d).1 = true → n = rs.length ∧ ∀ r ∈ rs, 0 ≤ r.start) := by
  induction rs generalizing d with
  | nil => exact ⟨0, Nat.le_refl 0, rfl, List.forall_mem_nil _, fun _ => ⟨rfl, List.forall_mem_nil _⟩⟩
  | cons r rs ih =>
      rw [writeStripes]
      split
      · rename_i hok
        obtain ⟨n, hn, hd, hoks, hall⟩ := ih (writeBytes buf d (io.moved r))
        have hpos : 0 ≤ r.start := of_decide_eq_true (Bool.and_eq_true_iff.1 hok).1
        refine ⟨n + 1, Nat.succ_le_succ hn, hd, List.forall_mem_cons.2 ⟨hok, hoks⟩, fun h => ?_⟩
        obtain ⟨hlen, hrs⟩ := hall h
        exact ⟨congrArg Nat.succ hlen, List.forall_mem_cons.2 ⟨hpos, hrs⟩⟩
      · exact ⟨0, Nat.zero_le _, rfl, List.forall_mem_nil _, fun h => by cases h⟩

/-- A chunk that can be written lies below byte `2 ^ 63` of its members. -/
def Addressed (g : Striping) (c : Nat) : Prop := ∀ r ∈ syncIoRequests g c 1, 0 ≤ r.start

theorem writeChunk_addressed (d : Members) (h : (syncWriteChunk g d c 1 buf io).1 = true) :
    Addressed g c := by
  obtain ⟨n, -, -, -, hok⟩ := writeStripes_spec buf io (syncIoRequests g c 1) d
  exact (hok h).2

/-- What `sync_write_chunk` does for one chunk: some of its stripes are written, all of them if it
succeeds, and all other chunks keep their bytes. -/
theorem writeChunk_spec (hc : g.Fits c 1) (d : Members) (buf : Bytes) (hio : io.Complete) :
    ∃ n ≤ g.perChunk, ((syncWriteChunk g d c 1 buf io).1 = true → n = g.perChunk) ∧
      ∀ c' k, g.Fits c' 1 → k < g.chunkLen → chunkAt g (syncWriteChunk g d c 1 buf io).2 c' k =
        if c' = c ∧ k / g.stripesize < n then buf k else chunkAt g d c' k := by
  obtain ⟨n, hn, hd, hoks, hok⟩ := writeStripes_spec buf io (syncIoRequests g c 1) d
  have hlen : (syncIoRequests g c 1).length = g.perChunk := by
    rw [syncIoRequests_eq hc, List.length_map, List.length_range]
  rw [hlen] at hn hok
  refine ⟨n, hn, fun h => (hok h).1, fun c' k hc' hk => ?_⟩
  have hwhole : ((syncIoRequests g c 1).take n).foldl (fun d r => writeBytes buf d (io.moved r)) d =
      ((syncIoRequests g c 1).take n).foldl (writeBytes buf) d :=
    List.foldl_ext _ _ _ fun d r hr => by rw [hio.moved (hoks r hr)]
  unfold syncWriteChunk
  rw [hd, hwhole, syncIoRequests_eq hc, ← List.map_take, List.take_range, Nat.min_eq_left hn]
  exact chunkAt_writes hc hc' hk hn

/-- After a write that succeeds the chunk holds the buffer. -/
theorem writeChunk_same (hc : g.Fits c 1) (hio : io.Complete)
    (h : (syncWriteChunk g d c 1 buf io).1 = true) (hk : k < g.chunkLen) :
    chunkAt g (syncWriteChunk g d c 1 buf io).2 c k = buf k := by
  obtain ⟨n, -, hok, hat⟩ := writeChunk_spec hc d buf hio
  rw [hat c k hc hk, hok h]
  exact if_pos ⟨rfl, (Nat.div_lt_iff_lt_mul g.stripesize_pos).2 hk⟩

/-- A part of a transfer reaches no other chunk than the transfer does. -/
theorem chunkAt_moved (hc : g.Fits c 1) (hc' : g.Fits c' 1) (hne : c' ≠ c) (hi : i < g.perChunk)
    (hk : k < g.chunkLen) :
    chunkAt g (writeBytes buf d (io.moved (stripeRequest g c i))) c' k = chunkAt g d c' k := by
  unfold chunkAt writeBytes
  rw [if_neg]
  rintro ⟨hm, hlo, hhi⟩
  have hle : (io.moved (stripeRequest g c i)).len ≤ (stripeRequest g c i).len := Nat.min_le_right _ _
  have hstart : (io.moved (stripeRequest g c i)).start = (stripeRequest g c i).start := rfl
  exact hne ((covers_iff hc hc' hi hk).1 ⟨hm, hlo, by omega⟩).1

/-- A write leaves the other chunks alone. -/
theorem writeChunk_other (hc : g.Fits c 1) (hc' : g.Fits c' 1) (hne : c' ≠ c) (buf : Bytes)
    (io : Transfers) : SameAt g (syncWriteChunk g d c 1 buf io).2 d c' := by
  intro k hk
  obtain ⟨n, -, hd, -, -⟩ := writeStripes_spec buf io (syncIoRequests g c 1) d
  have hreq : ∀ r ∈ (syncIoRequests g c 1).take n, ∃ i < g.perChunk, r = stripeRequest g c i := by
    intro r hr
    have hmem := List.mem_of_mem_take hr
    rw [syncIoRequests_eq hc] at hmem
    obtain ⟨i, hi, rfl⟩ := List.mem_map.1 hmem
    exact ⟨i, List.mem_range.1 hi, rfl⟩
  unfold syncWriteChunk
  rw [hd]
  clear hd
  generalize (syncIoRequests g c 1).take n = rs at hreq
  induction rs generalizing d with
  | nil => rfl
  | cons r rs ih =>
      obtain ⟨i, hi, rfl⟩ := hreq r List.mem_cons_self
      rw [List.foldl_cons, ih fun x hx => hreq x (List.mem_cons_of_mem _ hx)]
      exact chunkAt_moved hc hc' hne hi hk

theorem write_other {ok : Bool} {d₁ : Members} (hc : g.Fits c 1) (hc' : g.Fits c' 1) (hne : c' ≠ c)
    (h : syncWriteChunk g d c 1 buf io = (ok, d₁)) : SameAt g d₁ d c' := by
  have hother := @writeChunk_other g d c c' hc hc' hne buf io
  rwa [h] at hother

/-- A relation between the members before and behind a write, that every write to a chunk of `P` keeps,
finished or not. -/
structure Frame (g : Striping) (P : Nat → Prop) (R : Members → Members → Prop) : Prop where
  refl : ∀ d, R d d
  trans : ∀ {a b c}, R a b → R b c → R a c
  write : ∀ {c d d₁ ok} buf io, P c → g.Fits c 1 → syncWriteChunk g d c 1 buf io = (ok, d₁) → R d d₁

theorem Frame.mono {P Q : Nat → Prop} {R : Members → Members → Prop} (hR : Frame g Q R)
    (hPQ : ∀ c, P c → Q c) : Frame g P R where
  refl := hR.refl
  trans := hR.trans
  write := fun buf io hc => hR.write buf io (hPQ _ hc)

/-- Writes to other chunks keep the bytes of a chunk. -/
theorem sameAt_frame (hc' : g.Fits c' 1) : Frame g (c' ≠ ·) fun d d₁ => SameAt g d₁ d c' where
  refl := fun _ _ _ => rfl
  trans := fun hab hbc k hk => (hbc k hk).trans (hab k hk)
  write := fun _ _ hne hc h => write_other hc hc' hne h

/-- The chunk behind one that can be written does not wrap. -/
theorem Addressed.next (hc : g.Fits c 1) (h : Addressed g c) : g.Fits (c + 1) 1 := by
  have hs := g.stripesize_pos
  have hper := g.perChunk_pos
  have hmem : stripeRequest g c (g.perChunk - 1) ∈ syncIoRequests g c 1 := by
    rw [syncIoRequests_eq hc]
    exact List.mem_map.2 ⟨_, List.mem_range.2 (Nat.sub_lt hper Nat.one_pos), rfl⟩
  have hlast : g.firstStrp c + (g.perChunk - 1) = g.firstStrp (c + 1) - 1 := by
    rw [g.firstStrp_add, Nat.one_mul]
    omega
  have hstart : 0 ≤ offT (g.lastRound c * g.stripesize) := by
    have hr := h _ hmem
    unfold stripeRequest at hr
    simp only [hlast] at hr
    exact hr
  have hlt : g.lastRound c * g.stripesize < 2 ^ 63 := by
    have hfit := (g.fits_iff c).1 hc
    rw [Nat.succ_mul] at hfit
    unfold offT at hstart
    split at hstart
    · assumption
    · simp only [u64Size] at *
      omega
  have hnext : g.lastRound (c + 1) ≤ g.lastRound c + 1 := by
    have hn := g.nbMembers_pos
    have hn' : g.perChunk ≤ g.nbMembers := by
      unfold Striping.perChunk
      split
      · exact Nat.le_refl _
      · exact hn
    unfold Striping.lastRound
    rw [← Nat.add_div_right _ hn]
    apply Nat.div_le_div_right
    rw [g.firstStrp_add (c + 1), Nat.one_mul]
    have := g.le_firstStrp (c + 1)
    omega
  have hdvd : g.stripesize ∣ u64Size :=
    Dvd.dvd.trans g.stripesize_dvd (Nat.pow_dvd_pow 2 (by omega : 63 ≤ 64))
  refine (g.fits_iff (c + 1)).2 (le_trans (Nat.mul_le_mul_right _ (Nat.succ_le_succ hnext)) ?_)
  have hhalf : (g.lastRound c + 1) * g.stripesize ≤ 2 ^ 63 := by
    obtain ⟨z, hz⟩ := g.stripesize_dvd
    rw [hz, Nat.mul_comm] at hlt
    rw [hz, Nat.mul_comm]
    exact Nat.mul_le_mul_left _ (Nat.lt_of_mul_lt_mul_left hlt)
  obtain ⟨j, -, hj, hpow⟩ := g.stripesize_pow
  have hsmall : g.stripesize ≤ 2 ^ 31 := by
    rw [hpow]
    exact Nat.pow_le_pow_right Nat.two_pos (by omega)
  rw [Nat.succ_mul]
  simp only [u64Size]
  omega

/-! ## Reading -/

/-- The first `n` stripes are read. -/
theorem reads_eq {n : Nat} :
    ((List.range n).map (stripeRequest g c)).foldl (readBytes d) buf k =
      if k / g.stripesize < n then chunkAt g d c k else buf k := by
  have hs := g.stripesize_pos
  induction n with
  | zero => simp
  | succ n ih =>
      rw [List.range_succ, List.map_append, List.foldl_append]
      show readBytes d _ (stripeRequest g c n) k = _
      have hdm := Nat.div_add_mod k g.stripesize
      have hmod := Nat.mod_lt k hs
      generalize ((List.range n).map (stripeRequest g c)).foldl (readBytes d) buf = b at ih ⊢
      unfold readBytes
      rw [ih]
      split
      · rename_i h
        have heq : k / g.stripesize = n := by
          have h' : n * g.stripesize ≤ k ∧ k < n * g.stripesize + g.stripesize := h
          apply Nat.div_eq_of_lt_le
          · exact h'.1
          · rw [Nat.succ_mul]
            exact h'.2
        rw [if_pos (by omega : k / g.stripesize < n + 1)]
        have hoff : k - n * g.stripesize = k % g.stripesize := by
          rw [heq, Nat.mul_comm] at hdm
          omega
        unfold chunkAt offsetOf strpOf
        rw [heq]
        show d _ (offT _ + (k - n * g.stripesize : Nat)) = _
        rw [hoff]
        rfl
      · rename_i h
        have hne : k / g.stripesize ≠ n := by
          rintro rfl
          apply h
          show k / g.stripesize * g.stripesize ≤ k ∧ k < k / g.stripesize * g.stripesize + g.stripesize
          rw [Nat.mul_comm]
          omega
        congr 1
        simp only [eq_iff_iff]
        omega

theorem readStripes_some (hio : io.Complete) {rs : List IoRequest} {b : Bytes}
    (h : readStripes d io rs buf = some b) : b = rs.foldl (readBytes d) buf := by
  induction rs generalizing buf with
  | nil => exact (Option.some.inj h).symm
  | cons r rs ih =>
      rw [readStripes] at h
      split at h
      · rename_i hok
        rw [hio.moved hok] at h
        exact ih h
      · cases h

/-- `sync_read_chunk` returns what the members hold at the chunk. -/
theorem readChunk_spec (hc : g.Fits c 1) (hio : io.Complete) {b : Bytes}
    (h : syncReadChunk g d c 1 buf io = some b) (hk : k < g.chunkLen) : b k = chunkAt g d c k := by
  rw [readStripes_some hio h, syncIoRequests_eq hc, reads_eq]
  exact if_pos ((Nat.div_lt_iff_lt_mul g.stripesize_pos).2 hk)

/-- It leaves the memory behind the chunk alone. -/
theorem readChunk_behind (hc : g.Fits c 1) (hio : io.Complete) {b : Bytes}
    (h : syncReadChunk g d c 1 buf io = some b) (hk : g.chunkLen ≤ k) : b k = buf k := by
  rw [readStripes_some hio h, syncIoRequests_eq hc, reads_eq]
  exact if_neg fun hlt => Nat.not_lt.2 hk ((Nat.div_lt_iff_lt_mul g.stripesize_pos).1 hlt)

end Chunk

end Minipython.Tools
