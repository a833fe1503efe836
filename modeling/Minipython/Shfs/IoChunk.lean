/-
# Minipython.Shfs.IoChunk — reading and writing chunks one after the other (shfs.h)

`shfs_io_chunk` starts a striped request and waits for it. Where the request cannot be started it looks at
`errno`: on `EBUSY` it tries again, and any other number it returns. `shfs_io_chunk_nosched` does the same
without `schedule()`.

Request objects and tokens are shared with everyone else, so a call may find too few of them. But
`shfs_aio_chunk` says `EAGAIN` then, and so does `blkdev_async_io`, while `EBUSY` of a full device ring is
waited for below both. `Supplied` is a step that finds what it needs, and `io_chunk_iff` says that the calls
that fail for nothing are those with another step.

The call is a machine of its own: an attempt starts a request, the setup loop asks the members for objects
while other requests take and return theirs, and the completions come in before the call looks for them.
What is free when a stripe asks is part of the event. A run is one of a call from its start to its value.

The callers turn the value into theirs: `shfs_fio_read` hands it on, and a remount reports `-EIO`. The
theorem is about them as well, for any number of calls of which each finds what it needs. A member answers a
request that the device rejects with an error of its own, which is noted in `errors`.
-/
import Minipython.Minios.Blkdev
import Minipython.Shfs.Aio
import Minipython.Shfs.CacheRead
import Minipython.Shfs.System

namespace Minipython.Shfs

open Minipython.Lib
open Minipython.Minios (BlkfrontInfo IoArgs blkdevIoCheck ebusy eagain)

/-! ## The call -/

/-- What a call of `shfs_io_chunk` works with: the volume, and its arguments. -/
structure ChunkCall where
  geom : VolGeom
  info : Nat → BlkfrontInfo
  sfactor : Nat → Nat
  start : Nat
  len : Nat
  write : Bool
  buffer : UInt64

/-- The arguments of `blkdev_async_io` for a stripe. -/
def ChunkCall.stripeArgs (c : ChunkCall) (strp : Nat) : IoArgs :=
  let m := stripeMember c.geom strp
  { start := UInt64.ofNat (stripeOnMember c.geom strp * c.sfactor m)
    len := UInt64.ofNat (c.sfactor m)
    write := c.write
    buffer := c.buffer +
      UInt64.ofNat (strp - (aioRange c.geom c.start c.len).1) * UInt64.ofNat c.geom.stripesize }

/-- The checks of `blkdev_async_io` for a stripe. -/
def ChunkCall.rejects (c : ChunkCall) (strp : Nat) : Option Int :=
  blkdevIoCheck (c.info (stripeMember c.geom strp)) (c.stripeArgs strp)

/-- Where a call is. -/
inductive IoPhase where
  /-- at `retry` -/
  | call
  /-- in the loop of `shfs_aio_chunk`, about to queue the next stripe -/
  | setup
  /-- in `blkdev_async_io`, with an object, until the ring of the device has a slot -/
  | slot
  /-- a stripe could not be queued: in `shfs_aio_wait` until the others are done -/
  | cancel (ret : Int)
  /-- in the `shfs_aio_wait` of the call -/
  | wait
  | returned (ret : Int)
  deriving DecidableEq, Repr

/-- A call, its token and what is free. `errors` are the requests of the call that were rejected or failed. -/
structure IoChunk where
  avail : Nat → Nat
  tokens : Nat
  phase : IoPhase
  strp : Nat
  endS : Nat
  inflight : List Nat
  ret : Int
  errors : List (Nat × Int)

/-- A call that begins when this much is free. -/
def IoChunk.start (avail : Nat → Nat) (tokens : Nat) : IoChunk := ⟨avail, tokens, .call, 0, 0, [], 0, []⟩

/-- The behaviour where `shfs_aio_chunk` has returned `NULL`. -/
def afterNull (errno : Int) : IoPhase := if errno = ebusy then .call else .returned (-errno)

/-- `shfs_aio_chunk` up to its loop. -/
def ioAttempt (c : ChunkCall) (s : IoChunk) : IoChunk :=
  match aioStart c.geom true s.avail (0 < s.tokens) c.start c.len with
  | .error e => { s with phase := afterNull (-(Errno.ret e).1) }
  | .ok a =>
      { s with
        tokens := s.tokens - 1, strp := a.strp, endS := a.endS, ret := a.ret
        phase := if a.strp < a.endS then .setup else .wait }

/-- The end of `blkdev_async_io` when the driver has answered. -/
def ioEnqueue (s : IoChunk) (answer : Int) : IoChunk :=
  if answer = -ebusy then { s with phase := .slot }
  else if answer < 0 then { s with phase := .cancel answer, errors := (s.strp, answer) :: s.errors }
  else
    { s with
      inflight := s.strp :: s.inflight, strp := s.strp + 1
      phase := if s.strp + 1 < s.endS then .setup else .wait }

/-- One turn of the setup loop. -/
def ioStripe (c : ChunkCall) (s : IoChunk) (answer : Int) : IoChunk :=
  let m := stripeMember c.geom s.strp
  match c.rejects s.strp with
  | some e => { s with phase := .cancel e, errors := (s.strp, e) :: s.errors }
  | none =>
      -- the check at the beginning leaves the remainder of a division out
      if s.avail m = 0 then { s with phase := .cancel (-eagain) }
      else ioEnqueue { s with avail := Function.update s.avail m (s.avail m - 1) } answer

/-- `_shfs_aio_cb`, behind the callback of the device that puts the object back. -/
def ioComplete (c : ChunkCall) (s : IoChunk) (strp : Nat) (ret : Int) : IoChunk :=
  let m := stripeMember c.geom strp
  { s with
    avail := Function.update s.avail m (s.avail m + 1)
    inflight := s.inflight.erase strp
    ret := if ret < 0 then ret else s.ret
    errors := if ret < 0 then (strp, ret) :: s.errors else s.errors }

/-- Behind `shfs_aio_wait`: the token is put back. -/
def ioWaited (s : IoChunk) : IoChunk :=
  match s.phase with
  -- shfs_aio_chunk has kept the error of the stripe
  | .cancel ret => { s with tokens := s.tokens + 1, phase := afterNull (-ret) }
  | .wait => { s with tokens := s.tokens + 1, phase := .returned s.ret }
  | _ => s

inductive IoEvent where
  /-- the others take objects and tokens and give them back -/
  | load (avail : Nat → Nat) (tokens : Nat)
  | attempt
  /-- a turn of the setup loop, with the answer of the driver if it gets that far -/
  | stripe (answer : Int)
  /-- the ring has a slot, and the driver answers again -/
  | slot (answer : Int)
  /-- a stripe completes -/
  | complete (strp : Nat) (ret : Int)
  | waited

/-- The others run where the call waits or polls, which is not between two turns of the loop. -/
def ioEnabled (s : IoChunk) : IoEvent → Prop
  | .load _ _ => s.phase ≠ .setup
  | .attempt => s.phase = .call
  | .stripe _ => s.phase = .setup
  | .slot _ => s.phase = .slot
  | .complete strp _ => strp ∈ s.inflight
  | .waited => (s.phase = .wait ∨ ∃ ret, s.phase = .cancel ret) ∧ s.inflight = []

def ioNext (c : ChunkCall) (s : IoChunk) : IoEvent → Except Fault IoChunk
  | .load avail tokens => .ok { s with avail := avail, tokens := tokens }
  | .attempt => .ok (ioAttempt c s)
  | .stripe answer => .ok (ioStripe c s answer)
  | .slot answer => .ok (ioEnqueue s answer)
  | .complete strp ret => .ok (ioComplete c s strp ret)
  | .waited => .ok (ioWaited s)

/-- A call of `shfs_io_chunk` or `shfs_io_chunk_nosched` under any load. -/
def ioChunk (c : ChunkCall) : Machine IoChunk IoEvent Fault := ⟨ioEnabled, ioNext c⟩

/-- A step that finds free what it needs: the objects that the check asks for and a token, and in the loop an
object for a stripe that is not rejected. -/
def Supplied (c : ChunkCall) (s : IoChunk) : IoEvent → Prop
  | .attempt => (∀ m < c.geom.nbMembers, numReqPerMember c.geom c.start c.len ≤ s.avail m) ∧ 0 < s.tokens
  | .stripe _ => c.rejects s.strp = none → 0 < s.avail (stripeMember c.geom s.strp)
  | _ => True

/-! ## Calls that find what they need -/

section

variable {c : ChunkCall} {s t : IoChunk} {es : List IoEvent} {e : IoEvent}

/-- The start of a request asks for objects and a token, and has no other error on a mounted volume. -/
theorem aioStart_supplied (g : VolGeom) (avail : Nat → Nat) (token : Bool) (start len : Nat) :
    (∃ a, aioStart g true avail token start len = .ok a) ∧
        (∀ m < g.nbMembers, numReqPerMember g start len ≤ avail m) ∧ token = true ∨
      aioStart g true avail token start len = .error .eagain ∧
        ¬ ((∀ m < g.nbMembers, numReqPerMember g start len ≤ avail m) ∧ token = true) := by
  unfold aioStart
  simp only [Bool.not_true, Bool.false_eq_true, if_false]
  by_cases hany : (List.range g.nbMembers).any (fun m => avail m < numReqPerMember g start len) = true
  · rw [if_pos hany]
    refine .inr ⟨rfl, fun hall => ?_⟩
    rcases List.any_eq_true.1 hany with ⟨m, hm, hlt⟩
    have hle := hall.1 m (List.mem_range.1 hm)
    have hlt' := of_decide_eq_true hlt
    omega
  · rw [if_neg hany]
    cases token with
    | false => exact .inr ⟨rfl, fun hall => (by cases hall.2)⟩
    | true =>
        refine .inl ⟨⟨_, rfl⟩, fun m hm => ?_, rfl⟩
        by_contra hlt
        exact hany (List.any_eq_true.2 ⟨m, List.mem_range.2 hm, decide_eq_true (by omega)⟩)

/-- No request has an error: then the call has none either. -/
def NoErrors (s : IoChunk) : Prop :=
  s.errors = [] → 0 ≤ s.ret ∧ (∀ r, s.phase ≠ .cancel r) ∧ ∀ r, s.phase = .returned r → 0 ≤ r

theorem ioEnqueue_noErrors (h : s.errors = [] → 0 ≤ s.ret) (answer : Int) :
    NoErrors (ioEnqueue s answer) := by
  unfold ioEnqueue
  split
  · exact fun he => ⟨h he, fun r hr => (by cases hr), fun r hr => (by cases hr)⟩
  split
  · exact fun he => (by cases he)
  · refine fun he => ⟨h he, fun r hr => ?_, fun r hr => ?_⟩
    all_goals
      dsimp only at hr
      split at hr <;> cases hr

theorem ioAttempt_noErrors (hs : Supplied c s .attempt) : NoErrors (ioAttempt c s) := by
  unfold ioAttempt
  rcases aioStart_supplied c.geom s.avail (decide (0 < s.tokens)) c.start c.len
    with ⟨⟨a, ha⟩, -, -⟩ | ⟨-, hno⟩
  · rw [ha]
    have hret : a.ret = 0 := by
      unfold aioStart at ha
      simp only [Bool.not_true, Bool.false_eq_true, if_false] at ha
      split at ha
      · cases ha
      · rw [decide_eq_true hs.2] at ha
        cases ha
        rfl
    refine fun _ => ⟨Int.le_of_eq hret.symm, fun r hr => ?_, fun r hr => ?_⟩
    all_goals
      dsimp only at hr
      split at hr <;> cases hr
  · exact absurd ⟨hs.1, decide_eq_true hs.2⟩ hno

/-- A step that finds what it needs brings an error only with a request that has one. -/
theorem noErrors_step (h : NoErrors s) (hs : ((ioChunk c).restrict (Supplied c)).Step s e t) :
    NoErrors t := by
  rcases Machine.restrict_step.1 hs with ⟨⟨hen, hn⟩, hsup⟩
  cases e with
  | load avail tokens =>
      obtain rfl := Except.ok.inj hn
      exact h
  | attempt =>
      obtain rfl := Except.ok.inj hn
      exact ioAttempt_noErrors hsup
  | stripe answer =>
      obtain rfl := Except.ok.inj hn
      show NoErrors (ioStripe c s answer)
      unfold ioStripe
      cases hrej : c.rejects s.strp with
      | some r => exact fun he => (by cases he)
      | none =>
          -- there is an object for the stripe, so only the driver can refuse it
          have hpos : 0 < s.avail (stripeMember c.geom s.strp) := hsup hrej
          simp only
          rw [if_neg (by omega)]
          apply ioEnqueue_noErrors
          exact fun he => (h he).1
  | slot answer =>
      obtain rfl := Except.ok.inj hn
      exact ioEnqueue_noErrors (fun he => (h he).1) answer
  | complete strp ret =>
      obtain rfl := Except.ok.inj hn
      intro he
      by_cases hret : ret < 0
      · simp [ioComplete, hret] at he
      · have he' : s.errors = [] := by simpa [ioComplete, hret] using he
        rcases h he' with ⟨h1, h2, h3⟩
        refine ⟨?_, h2, h3⟩
        show 0 ≤ if ret < 0 then ret else s.ret
        rw [if_neg hret]
        exact h1
  | waited =>
      obtain rfl := Except.ok.inj hn
      -- the end of a whole request, or of one that a rejected stripe has cut short
      rcases hen with ⟨hp | ⟨r, hp⟩, -⟩
      · show NoErrors (ioWaited s)
        unfold ioWaited
        rw [hp]
        intro he
        rcases h he with ⟨h1, -, -⟩
        exact ⟨h1, fun r hr => (by cases hr), fun r hr => (by cases hr; exact h1)⟩
      · show NoErrors (ioWaited s)
        unfold ioWaited
        rw [hp]
        exact fun he => absurd hp ((h he).2.1 r)

/-! ## Calls that do not -/

/-- The call has met a lack, and will return `-EAGAIN` for it. -/
def Lacking (s : IoChunk) : Prop := s.phase = .cancel (-eagain) ∨ s.phase = .returned (-eagain)

theorem lacking_step (h : Lacking s) (hs : (ioChunk c).Step s e t) : Lacking t := by
  rcases hs with ⟨hen, hn⟩
  cases e with
  | load avail tokens =>
      obtain rfl := Except.ok.inj hn
      exact h
  | complete strp ret =>
      obtain rfl := Except.ok.inj hn
      exact h
  | attempt =>
      have hp : s.phase = .call := hen
      rcases h with h | h <;> cases hp.symm.trans h
  | stripe answer =>
      have hp : s.phase = .setup := hen
      rcases h with h | h <;> cases hp.symm.trans h
  | slot answer =>
      have hp : s.phase = .slot := hen
      rcases h with h | h <;> cases hp.symm.trans h
  | waited =>
      obtain rfl := Except.ok.inj hn
      rcases h with h | h
      · refine .inr ?_
        show (ioWaited s).phase = _
        unfold ioWaited
        rw [h]
        rfl
      · rcases hen.1 with hp | ⟨r, hp⟩ <;> cases h.symm.trans hp

/-- What is not there is not waited for. -/
theorem lacking_of_not_supplied (hs : (ioChunk c).Step s e t) (h : ¬ Supplied c s e) : Lacking t := by
  rcases hs with ⟨hen, hn⟩
  cases e with
  | load avail tokens => exact absurd trivial h
  | complete strp ret => exact absurd trivial h
  | slot answer => exact absurd trivial h
  | waited => exact absurd trivial h
  | attempt =>
      obtain rfl := Except.ok.inj hn
      rcases aioStart_supplied c.geom s.avail (decide (0 < s.tokens)) c.start c.len
        with ⟨-, h1, h2⟩ | ⟨hag, -⟩
      · exact absurd ⟨h1, of_decide_eq_true h2⟩ h
      · refine .inr ?_
        show (ioAttempt c s).phase = _
        unfold ioAttempt
        rw [hag]
        rfl
  | stripe answer =>
      obtain rfl := Except.ok.inj hn
      rcases Classical.not_imp.1 h with ⟨hrej, hzero⟩
      refine .inl ?_
      show (ioStripe c s answer).phase = _
      unfold ioStripe
      rw [hrej]
      simp only
      rw [if_pos (by omega)]

/-- A run finds all it needs, or it is on its way to `-EAGAIN`. -/
theorem supplied_or_lacking (hrun : (ioChunk c).Run s es t) :
    ((ioChunk c).restrict (Supplied c)).Run s es t ∨ Lacking t := by
  induction hrun with
  | nil s => exact .inl (.nil s)
  | @cons s u t e es hs hrun ih =>
      -- the first step that does not find what it needs decides the value
      by_cases hsup : Supplied c s e
      · rcases ih with ih | ih
        · exact .inl (.cons (Machine.restrict_step.2 ⟨hs, hsup⟩) ih)
        · exact .inr ih
      · refine .inr (hrun.invariant (fun _ _ _ hu hstep => lacking_step hu hstep) ?_)
        exact lacking_of_not_supplied hs hsup

/-- A call that finds all it needs fails only if a request of it does. -/
theorem errors_of_supplied {avail : Nat → Nat} {tokens : Nat} {r : Int}
    (hrun : ((ioChunk c).restrict (Supplied c)).Run (.start avail tokens) es s) (hret : s.phase = .returned r)
    (hr : r < 0) : s.errors ≠ [] := by
  have hno : NoErrors s := by
    refine hrun.invariant (fun _ _ _ hu hstep => noErrors_step hu hstep) ?_
    exact fun _ => ⟨Int.le_refl 0, fun r hr => (by cases hr), fun r hr => (by cases hr)⟩
  intro he
  have hle := (hno he).2.2 r hret
  omega

/-- Such a call, with its value and the requests that were rejected or failed. -/
def SuppliedCall (c : ChunkCall) (ret : Int) (errors : List (Nat × Int)) : Prop :=
  ∃ avail tokens es s, ((ioChunk c).restrict (Supplied c)).Run (.start avail tokens) es s ∧
    s.phase = .returned ret ∧ s.errors = errors

theorem SuppliedCall.errors {ret : Int} {errors : List (Nat × Int)} (h : SuppliedCall c ret errors)
    (hret : ret < 0) : errors ≠ [] := by
  rcases h with ⟨avail, tokens, es, s, hrun, hp, rfl⟩
  exact errors_of_supplied hrun hp hret

end

/-! ## The callers -/

/-- A reader that fails in its loop does so with the value of a chunk read. -/
theorem fioLoop_error {cs : Nat} {read : Nat → Nat → ChunkRead} {fuel i chkOff bytOff bufOff left : Nat}
    {r : Reading} (h : (fioLoop cs read fuel i chkOff bytOff bufOff left r).1 < 0) :
    ∃ j ch e, read j ch = .error e := by
  induction fuel generalizing i chkOff bytOff bufOff left r with
  | zero => exact absurd h (Int.lt_irrefl 0)
  | succ fuel ih =>
      rw [fioLoop] at h
      by_cases hleft : left = 0
      · rw [if_pos hleft] at h
        exact absurd h (Int.lt_irrefl 0)
      · rw [if_neg hleft] at h
        cases hread : read i chkOff with
        | error e => exact ⟨i, chkOff, e, hread⟩
        | ok chk =>
            rw [hread] at h
            exact ih h

/-- Reading a file from such calls fails only for its arguments, for its memory, or for a failed request. -/
theorem fioReader_supplied {cs : Nat} {e : Hentry} {mem : Bool} {read : Nat → Nat → ChunkRead}
    {offset len : Nat} {buf : Bytes} {call : Nat → Nat → ChunkCall} {errors : Nat → Nat → List (Nat × Int)}
    (hread : ∀ i ch r, read i ch = .error r → SuppliedCall (call i ch) r.1 (errors i ch))
    (h : (fioReader cs e mem read offset len buf).1 < 0) :
    e.isLink = true ∨ e.len < offset ∨ e.len < wrap64 (offset + len) ∨ mem = false ∨
      ∃ i ch, errors i ch ≠ [] := by
  unfold fioReader at h
  by_cases hlink : e.isLink = true
  · exact .inl hlink
  rw [if_neg hlink] at h
  by_cases hrange : e.len < offset ∨ e.len < wrap64 (offset + len)
  · rcases hrange with hoff | hend
    · exact .inr (.inl hoff)
    · exact .inr (.inr (.inl hend))
  rw [if_neg hrange] at h
  cases mem with
  | false => exact .inr (.inr (.inr (.inl rfl)))
  | true =>
      rcases fioLoop_error h with ⟨i, ch, r, hr⟩
      exact .inr (.inr (.inr (.inr ⟨i, ch, (hread i ch r hr).errors r.2⟩)))

/-- A remount that goes on with the value of such a call gives up only for a failed request. -/
theorem readDone_supplied {s : Sys} {v : Vol} {ch : Nat} {r : Option Bytes} {c : ChunkCall}
    {errors : List (Nat × Int)} (hv : s.vol = some v) (hl : s.locker = .read ch)
    (hread : r = none → ∃ ret < 0, SuppliedCall c ret errors)
    (h : (readDone s r).locker = .out (some .eio)) : errors ≠ [] := by
  cases r with
  | none =>
      rcases hread rfl with ⟨ret, hneg, hcall⟩
      exact hcall.errors hneg
  | some nchk =>
      unfold readDone at h
      rw [hl, hv] at h
      dsimp only at h
      unfold atEntry atChunk at h
      split at h
      · cases h
      · split at h <;> cases h

/-- A negative value of `shfs_io_chunk` means a rejected or failed request exactly in the calls that find what
they need, and in those that also have such a request; where a call does not find what it needs, it returns
`-EAGAIN`. Readers of files and remounts on calls that find what they need do not fail for a lack. -/
theorem io_chunk_iff {c : ChunkCall} {avail : Nat → Nat} {tokens : Nat} {es : List IoEvent} {s : IoChunk}
    {r : Int} (hrun : (ioChunk c).Run (.start avail tokens) es s) (hret : s.phase = .returned r) :
    ((r < 0 → s.errors ≠ []) ↔
      ((ioChunk c).restrict (Supplied c)).Run (.start avail tokens) es s ∨ s.errors ≠ []) ∧
    (¬ ((ioChunk c).restrict (Supplied c)).Run (.start avail tokens) es s → r = -eagain) ∧
    (∀ (conf : VolConf) (e : Hentry) (mem : Bool) (read : Nat → Nat → ChunkRead) (offset len : Nat)
        (buf : Bytes) (call : Nat → Nat → ChunkCall) (errors : Nat → Nat → List (Nat × Int)),
      (∀ i ch r, read i ch = .error r → SuppliedCall (call i ch) r.1 (errors i ch)) →
      (shfsFioRead conf e mem read offset len buf).1 < 0 ∨
        (shfsFioReadNosched conf e mem read offset len buf).1 < 0 →
      e.isLink = true ∨ e.len < offset ∨ e.len < wrap64 (offset + len) ∨ mem = false ∨
        ∃ i ch, errors i ch ≠ []) ∧
    ∀ (u : Sys) (v : Vol) (ch : Nat) (chk : Option Bytes) (errors : List (Nat × Int)), u.vol = some v →
      u.locker = .read ch → (chk = none → ∃ ret < 0, SuppliedCall c ret errors) →
      (readDone u chk).locker = .out (some .eio) → errors ≠ [] := by
  have hlack : ¬ ((ioChunk c).restrict (Supplied c)).Run (.start avail tokens) es s → r = -eagain := by
    intro hno
    rcases supplied_or_lacking hrun with hsup | hp | hp
    · exact absurd hsup hno
    · cases hret.symm.trans hp
    · exact IoPhase.returned.inj (hret.symm.trans hp)
  refine ⟨⟨fun h => ?_, ?_⟩, hlack, ?_, fun u v ch chk errors => readDone_supplied⟩
  · by_cases hsup : ((ioChunk c).restrict (Supplied c)).Run (.start avail tokens) es s
    · exact .inl hsup
    · refine .inr (h ?_)
      rw [hlack hsup]
      decide
  · rintro (hsup | herr) hneg
    · exact errors_of_supplied hsup hret hneg
    · exact herr
  · rintro conf e mem read offset len buf call errors hread (h | h)
    · exact fioReader_supplied hread h
    · exact fioReader_supplied hread h

/-- A device of 512-byte sectors that can be read, and a chunk of one stripe on it. -/
def oneStripe : ChunkCall :=
  ⟨.single, fun _ => ⟨512, ⟨false, false, false⟩⟩, fun _ => 8, 1, 1, false, 4096⟩

/-- The read finds its object and its token and fails on the device. -/
theorem io_chunk_iff_failed : ∃ s, (ioChunk oneStripe).Run (.start (fun _ => 1) 1)
      [.attempt, .stripe (-16), .slot 0, .complete 1 (-5), .waited] s ∧ s.phase = .returned (-5) ∧
    (((-5 : Int) < 0 → s.errors ≠ []) ↔
      ((ioChunk oneStripe).restrict (Supplied oneStripe)).Run (.start (fun _ => 1) 1)
        [.attempt, .stripe (-16), .slot 0, .complete 1 (-5), .waited] s ∨ s.errors ≠ []) := by
  have e₁ : (ioChunk oneStripe).Step (.start (fun _ => 1) 1) .attempt
      ⟨fun _ => 1, 0, .setup, 1, 2, [], 0, []⟩ := ⟨rfl, rfl⟩
  have e₂ : (ioChunk oneStripe).Step ⟨fun _ => 1, 0, .setup, 1, 2, [], 0, []⟩ (.stripe (-16))
      ⟨Function.update (fun _ => 1) 0 0, 0, .slot, 1, 2, [], 0, []⟩ := ⟨rfl, rfl⟩
  have e₃ : (ioChunk oneStripe).Step ⟨Function.update (fun _ => 1) 0 0, 0, .slot, 1, 2, [], 0, []⟩ (.slot 0)
      ⟨Function.update (fun _ => 1) 0 0, 0, .wait, 2, 2, [1], 0, []⟩ := ⟨rfl, rfl⟩
  have e₄ : (ioChunk oneStripe).Step ⟨Function.update (fun _ => 1) 0 0, 0, .wait, 2, 2, [1], 0, []⟩
      (.complete 1 (-5)) ⟨Function.update (Function.update (fun _ => 1) 0 0) 0 1, 0, .wait, 2, 2, [], -5,
        [(1, -5)]⟩ := ⟨List.mem_singleton_self 1, rfl⟩
  have e₅ : (ioChunk oneStripe).Step ⟨Function.update (Function.update (fun _ => 1) 0 0) 0 1, 0, .wait, 2, 2, [],
      -5, [(1, -5)]⟩ .waited ⟨Function.update (Function.update (fun _ => 1) 0 0) 0 1, 1, .returned (-5), 2, 2, [],
        -5, [(1, -5)]⟩ := ⟨⟨.inl rfl, rfl⟩, rfl⟩
  have hrun := Machine.Run.cons e₁ (.cons e₂ (.cons e₃ (.cons e₄ (.single e₅))))
  exact ⟨_, hrun, rfl, (io_chunk_iff hrun rfl).1⟩

/-- All tokens are out: the call fails at once, without a request. -/
theorem io_chunk_fails_without_tokens :
    ¬ ∀ (c : ChunkCall) (avail : Nat → Nat) (tokens : Nat) (es : List IoEvent) (s : IoChunk) (r : Int),
      (ioChunk c).Run (.start avail tokens) es s → s.phase = .returned r → r < 0 → s.errors ≠ [] := by
  intro hall
  have hstep : (ioChunk oneStripe).Step (.start (fun _ => 32) 0) .attempt
      ⟨fun _ => 32, 0, .returned (-eagain), 0, 0, [], 0, []⟩ := ⟨rfl, rfl⟩
  exact hall oneStripe _ _ _ _ _ (.single hstep) rfl (by decide) rfl

end Minipython.Shfs
