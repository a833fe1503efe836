/-
# Minipython.Shfs.HtableLoad — the reads behind a mount (shfs.c, load_vol_htable)

`load_vol_htable` starts a read for each chunk of the hash table and goes on while they are in flight. The
reads count down `aiot.left`, which is on the stack of the function like the rest of `aiot`, and the last one
sets `aiot.done`. The function waits for that before it looks at the table, and also where a read could not
be started, with as many reads as were.

Where memory runs out it frees the buffers and returns at once. `AllocOk` is a step where nothing is in flight
then, and `load_releases_iff` says that these are the steps that matter.

Each read is a request of `aio`, whose callback runs once and last if no completion catches up with its
setup; `CalmReads` is that.

`htableLoad` is the machine: the function itself, the completions that the devices deliver while it yields,
and what memory and devices answer. `Loading` is its invariant: `left` is the number of reads whose callback
has not run, plus the ones to be started, and a read that is in flight has its buffer. From the exits that
wait for `aiot.done` nothing is in flight, so `left` is zero there and the buffers may go. The two that do
not wait are `err_free_chunkcache` behind a failed allocation of a buffer and the one behind a failed
allocation of the table.

A read that a device fails completes like any other. Its error is looked at behind the wait, and the
function returns `-EIO` then.
-/
import Mathlib.Data.Finset.Card
import Mathlib.Order.Interval.Finset.Nat
import Minipython.Shfs.Aio

namespace Minipython.Shfs

open Minipython.Lib

/-! ## The function -/

/-- Where and how long the hash table is. -/
structure LoadConf where
  geom : VolGeom
  htableRef : Nat
  htableLen : Nat

/-- Where `load_vol_htable` is. -/
inductive LoadPc where
  /-- about to allocate the table of chunks -/
  | table
  /-- in the loop, about to allocate the buffer of chunk `c` -/
  | malloc
  /-- at `repeat_aio` -/
  | aread
  /-- in `shfs_aread_chunk` for chunk `c` -/
  | setup
  /-- about to allocate the bucket table -/
  | btable
  /-- polling until all reads are done -/
  | wait
  /-- at `err_cancel_aio`, polling -/
  | cancel
  | returned (ret : Option Errno)
  deriving DecidableEq, Repr

/-- The variables of the function: `left`, `done` and `ret` are those of `aiot`, `bufs` the chunks that have a
buffer, and `reads` their requests. `lost` are the reads that were in flight when the function returned. -/
structure HtableLoad where
  pc : LoadPc
  c : Nat
  left : Int
  done : Bool
  ret : Int
  bufs : Finset Nat
  reads : Nat → Aio
  lost : List Nat

/-- No request. -/
def noAio : Aio := ⟨0, 0, .returned none, 0, 0, false, [], []⟩

def HtableLoad.start : HtableLoad := ⟨.table, 0, 0, false, 0, ∅, fun _ => noAio, []⟩

/-- The reads with stripes that are not completed. -/
def inFlight (conf : LoadConf) (s : HtableLoad) : List Nat :=
  (List.range conf.htableLen).filter fun i => (s.reads i).inflight ≠ []

/-- `_load_vol_htable_cb` of a read with the result `ioret`. -/
def loadVolHtableCb (s : HtableLoad) (ioret : Int) : Except Fault HtableLoad :=
  if s.left = 0 then .error .bugOn
  else
    .ok { s with
      ret := if ioret < 0 then ioret else s.ret
      left := s.left - 1
      done := if s.left - 1 = 0 then true else s.done }

/-- The function returns, and `aiot` is gone. -/
def leaveLoad (conf : LoadConf) (s : HtableLoad) (ret : Option Errno) : HtableLoad :=
  { s with pc := .returned ret, lost := inFlight conf s }

/-- `err_free_chunkcache`. -/
def errFreeChunkcache (conf : LoadConf) (s : HtableLoad) (ret : Errno) : HtableLoad :=
  leaveLoad conf { s with bufs := ∅ } (some ret)

/-- The head of the loop over the chunks. -/
def loadLoop (conf : LoadConf) (s : HtableLoad) (c : Nat) : HtableLoad :=
  { s with c := c, pc := if c < conf.htableLen then .malloc else .btable }

/-- `shfs_aread_chunk` has returned `NULL`. -/
def areadFailed (conf : LoadConf) (s : HtableLoad) (e : Errno) : HtableLoad :=
  if e = .eagain ∨ e = .ebusy then { s with pc := .aread }
  -- the chunks that are not read any more count as done
  else { s with left := s.left - (conf.htableLen - s.c), pc := .cancel }

inductive LoadEvent where
  /-- the allocations: of the table of chunks, of a chunk, and of the bucket table -/
  | table (ok : Bool)
  | malloc (ok : Bool)
  | btable (ok : Bool)
  /-- `shfs_aio_chunk` up to its loop, with what is free -/
  | aread (avail : Nat → Nat) (token : Bool)
  /-- a read goes on -/
  | read (i : Nat) (e : AioEvent)
  /-- the polling ends -/
  | waited

def loadEnabled (s : HtableLoad) : LoadEvent → Prop
  | .table _ => s.pc = .table
  | .malloc _ => s.pc = .malloc
  | .btable _ => s.pc = .btable
  | .aread _ _ => s.pc = .aread
  | .read i (.complete strp ret) => aioEnabled (s.reads i) (.complete strp ret)
  | .read i e => s.pc = .setup ∧ i = s.c ∧ aioEnabled (s.reads i) e
  | .waited => s.pc = .wait ∧ s.done = true ∨ s.pc = .cancel ∧ (s.left = 0 ∨ s.done = true)

/-- `shfs_aread_chunk` where it has returned, or goes on. -/
def afterSetup (conf : LoadConf) (s : HtableLoad) (phase : AioPhase) : HtableLoad :=
  match phase with
  | .returned none => loadLoop conf s (s.c + 1)
  | .returned (some e) => areadFailed conf s e
  | _ => { s with pc := .setup }

/-- A step of the read `i`. Its callback is that of the function. -/
def readNext (conf : LoadConf) (s : HtableLoad) (i : Nat) (e : AioEvent) : Except Fault HtableLoad := do
  let a ← aioNext (s.reads i) e
  let s' := { s with reads := Function.update s.reads i a }
  -- this step has run the callback of the read
  let s' ← if (s.reads i).calls.length < a.calls.length then loadVolHtableCb s' a.ret else .ok s'
  match e with
  | .complete _ _ => return s'
  | _ => return afterSetup conf s' a.phase

def loadNext (conf : LoadConf) (s : HtableLoad) : LoadEvent → Except Fault HtableLoad
  | .table true => .ok (loadLoop conf { s with left := conf.htableLen, done := false, ret := 0 } 0)
  | .table false => .ok (leaveLoad conf s (some .enomem))
  | .malloc true => .ok { s with bufs := insert s.c s.bufs, pc := .aread }
  | .malloc false => .ok (errFreeChunkcache conf s .enomem)
  | .aread avail token =>
      match aioStart conf.geom true avail token (conf.htableRef + s.c) 1 with
      | .error e => .ok (areadFailed conf s e)
      | .ok a => .ok (afterSetup conf { s with reads := Function.update s.reads s.c a } a.phase)
  | .read i e => readNext conf s i e
  | .btable true => .ok { s with pc := .wait }
  | .btable false => .ok (errFreeChunkcache conf s .enomem)
  | .waited =>
      -- err_cancel_aio polls the same way, and ends in an error whatever the reads returned
      if s.pc = .wait ∧ 0 ≤ s.ret then .ok (leaveLoad conf s none) else .ok (errFreeChunkcache conf s .eio)

/-- The function under its devices. -/
def htableLoad (conf : LoadConf) : Machine HtableLoad LoadEvent Fault := ⟨loadEnabled, loadNext conf⟩

/-- No completion of a read catches up with its setup. -/
def CalmReads (s : HtableLoad) : LoadEvent → Prop
  | .read i e => Calm (s.reads i) e
  | _ => True

/-- Memory runs out only while no read is in flight. -/
def AllocOk (conf : LoadConf) (s : HtableLoad) : LoadEvent → Prop
  | .malloc false | .btable false => inFlight conf s = []
  | _ => True

/-! ## How many reads have called back -/

/-- Of the first `c` reads, those whose callback has run. -/
def called (reads : Nat → Aio) (c : Nat) : Nat := ((Finset.range c).filter fun i => (reads i).calls ≠ []).card

section

variable (reads : Nat → Aio) {c i : Nat} (a : Aio)

theorem called_le (c : Nat) : called reads c ≤ c := by
  have hle := Finset.card_filter_le (Finset.range c) fun i => (reads i).calls ≠ []
  rwa [Finset.card_range] at hle

theorem called_lt (hi : i < c) (h : (reads i).calls = []) : called reads c < c := by
  have hlt : ((Finset.range c).filter fun i => (reads i).calls ≠ []) ⊂ Finset.range c := by
    refine Finset.filter_ssubset.2 ⟨i, Finset.mem_range.2 hi, ?_⟩
    rw [h]
    exact fun hn => hn rfl
  have hcard := Finset.card_lt_card hlt
  rwa [Finset.card_range] at hcard

theorem called_succ : called reads (c + 1) = called reads c + if (reads c).calls ≠ [] then 1 else 0 := by
  unfold called
  rw [Finset.range_add_one, Finset.filter_insert]
  split
  · rw [Finset.card_insert_of_notMem]
    intro hm
    exact Nat.lt_irrefl c (Finset.mem_range.1 (Finset.mem_filter.1 hm).1)
  · rfl

theorem called_update_of_le (hi : c ≤ i) : called (Function.update reads i a) c = called reads c := by
  unfold called
  congr 1
  apply Finset.filter_congr
  intro j hj
  have hj' := Finset.mem_range.1 hj
  rw [Function.update_of_ne (by omega)]

theorem called_update (hi : i < c) (h : (reads i).calls = []) :
    called (Function.update reads i a) c = called reads c + if a.calls ≠ [] then 1 else 0 := by
  induction c with
  | zero => omega
  | succ c ih =>
      rw [called_succ, called_succ]
      by_cases hic : i = c
      · subst hic
        rw [called_update_of_le reads a (Nat.le_refl i), Function.update_self, h]
        simp
      · rw [ih (by omega), Function.update_of_ne (fun he => hic he.symm)]
        omega

end

/-! ## One read -/

/-- A read whose setup is over: its callback runs once, behind its last stripe. -/
def Started (a : Aio) : Prop := (∃ first, CalledOnce first a) ∧ a.phase = .returned none

/-- A read that is being set up, or whose setup has failed: its callback has not run. -/
structure Queuing (a : Aio) : Prop where
  once : ∃ first, CalledOnce first a
  calls : a.calls = []
  phase : a.phase = .setup ∨ (∃ e, a.phase = .cancel e) ∧ a.cb = false

section

variable {a b : Aio} {strp : Nat} {ret : Int}

theorem Started.calls (h : Started a) (hin : a.inflight ≠ []) : a.calls = [] := by
  rcases h with ⟨⟨first, -, -, hrec⟩, hp⟩
  rw [hp] at hrec
  rw [hrec.2, if_neg fun he => hin he.1]

theorem shfsAioCb_phase (a : Aio) (strp : Nat) (ret : Int) : (shfsAioCb a strp ret).phase = a.phase := by
  unfold shfsAioCb
  dsimp only
  split <;> rfl

theorem shfsAioCb_calls (a : Aio) (strp : Nat) (ret : Int) : (shfsAioCb a strp ret).calls =
    if a.infly - 1 = 0 ∧ a.cb = true then a.calls ++ [(a.strp, a.inflight.erase strp)] else a.calls := by
  unfold shfsAioCb
  dsimp only
  split <;> rfl

theorem shfsAioCb_cb (a : Aio) (strp : Nat) (ret : Int) : (shfsAioCb a strp ret).cb = a.cb := by
  unfold shfsAioCb
  dsimp only
  split <;> rfl

/-- A completion of a read whose setup is over. -/
theorem Started.complete (h : Started a) (hin : strp ∈ a.inflight) (ret : Int) :
    Started (shfsAioCb a strp ret) := by
  rcases h with ⟨⟨first, honce⟩, hp⟩
  have hstep : (aio.restrict Calm).Step a (.complete strp ret) (shfsAioCb a strp ret) :=
    ⟨⟨hin, fun hs => by rw [hp] at hs; cases hs⟩, rfl⟩
  exact ⟨⟨first, calledOnce_step honce hstep⟩, (shfsAioCb_phase a strp ret).trans hp⟩

/-- A completion of a read that is being set up does not run the callback. -/
theorem Queuing.complete (h : Queuing a) (hin : strp ∈ a.inflight) (hcalm : Calm a (.complete strp ret)) :
    Queuing (shfsAioCb a strp ret) := by
  rcases h.once with ⟨first, honce⟩
  have hstep : (aio.restrict Calm).Step a (.complete strp ret) (shfsAioCb a strp ret) := ⟨⟨hin, hcalm⟩, rfl⟩
  refine ⟨⟨first, calledOnce_step honce hstep⟩, ?_, ?_⟩
  · rw [shfsAioCb_calls, if_neg, h.calls]
    rintro ⟨h0, hcb⟩
    rcases h.phase with hp | ⟨-, hno⟩
    · have h1 : a.infly ≠ 1 := hcalm hp
      omega
    · rw [hcb] at hno
      cases hno
  · rw [shfsAioCb_phase, shfsAioCb_cb]
    exact h.phase

/-- A turn of the setup, or its end. -/
theorem Queuing.setup (h : Queuing a) {e : AioEvent} (hstep : aio.Step a e b)
    (hno : ∀ strp ret, e ≠ .complete strp ret) :
    b.calls = [] ∧ ((b.phase = .returned none ∧ Started b ∧ b.inflight ≠ []) ∨
      (∃ r, b.phase = .returned (some r) ∧ b.inflight = []) ∨
      (b.phase ≠ .returned none ∧ (∀ r, b.phase ≠ .returned (some r)) ∧ Queuing b)) := by
  rcases h.once with ⟨first, honce⟩
  have hcalm : Calm a e := by
    cases e with
    | complete strp ret => exact absurd rfl (hno strp ret)
    | enqueue r => trivial
    | waited => trivial
  have honce' : CalledOnce first b := calledOnce_step honce (Machine.restrict_step.2 ⟨hstep, hcalm⟩)
  rcases hstep with ⟨hen, hn⟩
  cases e with
  | complete strp ret => exact absurd rfl (hno strp ret)
  | enqueue r =>
      have hp : a.phase = .setup := hen
      cases r with
      | none =>
          obtain rfl := Except.ok.inj hn
          refine ⟨h.calls, ?_⟩
          by_cases hend : a.strp + 1 < a.endS
          · refine .inr (.inr ⟨?_, ?_, ⟨first, honce'⟩, h.calls, .inl (if_pos hend)⟩)
            · show (if a.strp + 1 < a.endS then AioPhase.setup else .returned none) ≠ _
              rw [if_pos hend]
              exact fun hh => (by cases hh)
            · intro r
              show (if a.strp + 1 < a.endS then AioPhase.setup else .returned none) ≠ _
              rw [if_pos hend]
              exact fun hh => (by cases hh)
          · exact .inl ⟨if_neg hend, ⟨⟨first, honce'⟩, if_neg hend⟩, List.cons_ne_nil _ _⟩
      | some r =>
          obtain rfl := Except.ok.inj hn
          refine ⟨h.calls, .inr (.inr ⟨fun hh => (by cases hh), fun r hh => (by cases hh),
              ⟨first, honce'⟩, h.calls, ?_⟩)⟩
          exact .inr ⟨⟨r, rfl⟩, rfl⟩
  | waited =>
      -- the cancelled setup has waited for its stripes
      rcases hen with ⟨⟨r, hp⟩, hzero⟩
      have hn' : aioNext a .waited = .ok { a with phase := .returned (some r) } := by
        unfold aioNext
        rw [hp]
      obtain rfl := Except.ok.inj (hn'.symm.trans hn)
      refine ⟨h.calls, .inr (.inl ⟨r, rfl, ?_⟩)⟩
      have hinfly : a.infly = a.inflight.length := honce.1.infly
      have hlen : a.inflight.length = 0 := by omega
      exact List.length_eq_zero_iff.1 hlen

/-- What `shfs_aio_chunk` begins with. -/
theorem aioStart_started {g : VolGeom} {avail : Nat → Nat} {token : Bool} {start len : Nat}
    (h : aioStart g true avail token start len = .ok a) :
    a.inflight = [] ∧ a.calls = [] ∧
      (a.phase = .setup ∧ Queuing a ∨ a.phase = .returned none ∧ Started a) := by
  rcases aioStart_inv h with ⟨hinv, hcalls, hin, hstrp, hend, hphase⟩
  refine ⟨hin, hcalls, ?_⟩
  by_cases hlt : a.strp < a.endS
  · rw [if_pos hlt] at hphase
    refine .inl ⟨hphase, ⟨a.strp, hinv, by simp [hin], ?_⟩, hcalls, .inl hphase⟩
    rw [hphase]
    exact hcalls
  · rw [if_neg hlt] at hphase
    refine .inr ⟨hphase, ⟨a.strp, hinv, by simp [hin], ?_⟩, hphase⟩
    rw [hphase]
    refine ⟨by omega, ?_⟩
    rw [hcalls, if_neg fun hc => hlt hc.2]

end

/-! ## The loop over the chunks -/

/-- What holds while the function runs: reads below `c` have been started, and the one at `c` is being set up
or is idle; each read in flight has its buffer, and `left` is what has not called back. -/
structure Loading (conf : LoadConf) (s : HtableLoad) : Prop where
  lost : s.lost = []
  started : ∀ i < s.c, Started (s.reads i)
  queuing : s.pc = .setup → Queuing (s.reads s.c)
  idle : ∀ i, s.c ≤ i → (i = s.c → s.pc ≠ .setup) → (s.reads i).inflight = []
  bufs : ∀ i < s.c, i ∈ s.bufs
  buf : s.pc = .aread ∨ s.pc = .setup → s.c ∈ s.bufs
  done : s.done = true → s.left = 0
  left : s.left = (if s.pc = .cancel then (s.c : Int) else conf.htableLen) - called s.reads s.c
  here : (s.pc = .malloc ∨ s.pc = .aread ∨ s.pc = .setup ∨ s.pc = .cancel → s.c < conf.htableLen) ∧
    (s.pc = .btable ∨ s.pc = .wait → s.c = conf.htableLen) ∧ s.pc ≠ .table ∧ ∀ r, s.pc ≠ .returned r

/-- The function has returned, with no read in flight. -/
structure LoadDone (s : HtableLoad) : Prop where
  lost : s.lost = []
  pc : ∃ r, s.pc = .returned r
  quiet : ∀ i, (s.reads i).inflight = []
  left : 0 ≤ s.left

/-- What holds in every state of the function: it has not begun, it runs, or it has returned. -/
def LoadOk (conf : LoadConf) (s : HtableLoad) : Prop :=
  (s = HtableLoad.start ∨ Loading conf s) ∨ LoadDone s

/-- What a read in flight works with is still there. -/
def ReadsAlive (s : HtableLoad) : Prop :=
  ∀ i, (s.reads i).inflight ≠ [] → i ∈ s.bufs ∧ ∀ r, s.pc ≠ .returned r

section

variable {conf : LoadConf} {s t : HtableLoad}

theorem Loading.le (h : Loading conf s) : s.c ≤ conf.htableLen := by
  rcases h.here with ⟨h1, h2, h3, h4⟩
  cases hp : s.pc with
  | table => exact absurd hp h3
  | malloc => exact Nat.le_of_lt (h1 (.inl hp))
  | aread => exact Nat.le_of_lt (h1 (.inr (.inl hp)))
  | setup => exact Nat.le_of_lt (h1 (.inr (.inr (.inl hp))))
  | cancel => exact Nat.le_of_lt (h1 (.inr (.inr (.inr hp))))
  | btable => exact Nat.le_of_eq (h2 (.inl hp))
  | wait => exact Nat.le_of_eq (h2 (.inr hp))
  | returned r => exact absurd hp (h4 r)

/-- `left` is never below zero. -/
theorem Loading.left_nonneg (h : Loading conf s) : 0 ≤ s.left := by
  have hle := called_le s.reads s.c
  have hc := h.le
  rw [h.left]
  split <;> omega

/-- Nothing is in flight once `left` is down to zero. -/
theorem Loading.quiet_of_left (h : Loading conf s) (hset : s.pc ≠ .setup) (hzero : s.left = 0) :
    ∀ i, (s.reads i).inflight = [] := by
  intro i
  by_cases hi : i < s.c
  · by_contra hin
    have hlt := called_lt s.reads hi ((h.started i hi).calls hin)
    have hc := h.le
    have hleft := h.left
    rw [hzero] at hleft
    split at hleft <;> omega
  · exact h.idle i (by omega) fun _ => hset

theorem mem_inFlight {i : Nat} : i ∈ inFlight conf s ↔ i < conf.htableLen ∧ (s.reads i).inflight ≠ [] := by
  unfold inFlight
  rw [List.mem_filter, List.mem_range, decide_eq_true_iff]

/-- Nothing is in flight if none of the reads of the table is. -/
theorem Loading.quiet_of_inFlight (h : Loading conf s) (hset : s.pc ≠ .setup) (hnil : inFlight conf s = []) :
    ∀ i, (s.reads i).inflight = [] := by
  intro i
  by_contra hin
  have hi : i < s.c := by
    by_contra hge
    exact hin (h.idle i (by omega) fun _ => hset)
  have hmem : i ∈ inFlight conf s := mem_inFlight.2 ⟨by have := h.le; omega, hin⟩
  rw [hnil] at hmem
  cases hmem

/-- The function returns while nothing is in flight. -/
theorem LoadDone.of_quiet (hleft : 0 ≤ s.left) (hquiet : ∀ i, (s.reads i).inflight = [])
    (ret : Option Errno) : LoadDone (leaveLoad conf s ret) := by
  refine ⟨?_, ⟨ret, rfl⟩, hquiet, hleft⟩
  -- nothing in flight, so nothing is lost
  apply List.filter_eq_nil_iff.2
  intro i _
  rw [decide_eq_true_iff]
  exact fun hn => hn (hquiet i)

/-- A chunk whose read is about to start is one of the table, … -/
theorem Loading.lt (h : Loading conf s) (hp : s.pc = .aread ∨ s.pc = .setup) : s.c < conf.htableLen := by
  rcases hp with hp | hp
  · exact h.here.1 (.inr (.inl hp))
  · exact h.here.1 (.inr (.inr (.inl hp)))

/-- … and no chunk has been given up before it. -/
theorem Loading.left_eq (h : Loading conf s) (hnc : s.pc ≠ .cancel) :
    s.left = (conf.htableLen : Int) - called s.reads s.c := by
  have hleft := h.left
  rw [if_neg hnc] at hleft
  exact hleft

theorem not_cancel (hp : s.pc = .aread ∨ s.pc = .setup) : s.pc ≠ .cancel := by
  rcases hp with hp | hp <;> rw [hp] <;> exact fun hh => (by cases hh)

/-- On to the next chunk, with the read of this one started. -/
theorem Loading.advance (h : Loading conf s) {a : Aio} (hp : s.pc = .aread ∨ s.pc = .setup)
    (hstart : Started a) (hcalls : a.calls = []) :
    Loading conf (loadLoop conf { s with reads := Function.update s.reads s.c a } (s.c + 1)) := by
  have hlt := h.lt hp
  have hpc : ∀ q, q = LoadPc.malloc ∨ q = .btable → q ≠ .cancel ∧ q ≠ .setup ∧ q ≠ .aread ∧ q ≠ .table ∧
      (∀ r, q ≠ .returned r) ∧ q ≠ .wait := by
    rintro q (rfl | rfl) <;> refine ⟨?_, ?_, ?_, ?_, ?_, ?_⟩ <;> intros <;> exact fun hh => (by cases hh)
  have hnew : (if s.c + 1 < conf.htableLen then LoadPc.malloc else .btable) = .malloc ∨
      (if s.c + 1 < conf.htableLen then LoadPc.malloc else .btable) = .btable := by
    split
    · exact .inl rfl
    · exact .inr rfl
  -- none of the other places of the function is next
  rcases hpc _ hnew with ⟨n1, n2, n3, n4, n5, n6⟩
  refine ⟨h.lost, ?_, fun hq => absurd hq n2, ?_, ?_, ?_, h.done, ?_, ?_, ?_, n4, n5⟩
  · intro i hi
    show Started (Function.update s.reads s.c a i)
    by_cases hic : i = s.c
    · rw [hic, Function.update_self]
      exact hstart
    · rw [Function.update_of_ne hic]
      exact h.started i (by have : i < s.c + 1 := hi; omega)
  · intro i hi _
    have hi' : s.c + 1 ≤ i := hi
    show (Function.update s.reads s.c a i).inflight = []
    rw [Function.update_of_ne (by omega)]
    exact h.idle i (by omega) fun he => absurd he (by omega)
  · intro i hi
    have hi' : i < s.c + 1 := hi
    show i ∈ s.bufs
    by_cases hic : i = s.c
    · rw [hic]
      exact h.buf hp
    · exact h.bufs i (by omega)
  · rintro (hq | hq)
    · exact absurd hq n3
    · exact absurd hq n2
  · show s.left = (if (if s.c + 1 < conf.htableLen then LoadPc.malloc else .btable) = .cancel then _ else _) -
      ((called (Function.update s.reads s.c a) (s.c + 1) : Nat) : Int)
    rw [if_neg n1, called_succ, called_update_of_le s.reads a (Nat.le_refl _), Function.update_self, hcalls]
    simpa using h.left_eq (not_cancel hp)
  · rintro (hq | hq | hq | hq)
    · show s.c + 1 < conf.htableLen
      by_contra hge
      have hq' : (if s.c + 1 < conf.htableLen then LoadPc.malloc else .btable) = .malloc := hq
      rw [if_neg hge] at hq'
      cases hq'
    · exact absurd hq n3
    · exact absurd hq n2
    · exact absurd hq n1
  · rintro (hq | hq)
    · show s.c + 1 = conf.htableLen
      have hq' : (if s.c + 1 < conf.htableLen then LoadPc.malloc else .btable) = .btable := hq
      by_contra hne
      rw [if_pos (by omega)] at hq'
      cases hq'
    · exact absurd hq n6

/-- The read of the chunk is being set up. -/
theorem Loading.setup (h : Loading conf s) {a : Aio} (hp : s.pc = .aread ∨ s.pc = .setup) (hq : Queuing a) :
    Loading conf { s with reads := Function.update s.reads s.c a, pc := .setup } := by
  have hlt := h.lt hp
  have hold : ∀ i, i ≠ s.c → Function.update s.reads s.c a i = s.reads i := fun i hi =>
    Function.update_of_ne hi ..
  refine ⟨h.lost, ?_, ?_, ?_, h.bufs, fun _ => h.buf hp, h.done, ?_, fun _ => hlt, ?_, ?_, ?_⟩
  · intro i hi
    have hi' : i < s.c := hi
    show Started (Function.update s.reads s.c a i)
    rw [hold i (by omega)]
    exact h.started i hi'
  · intro _
    show Queuing (Function.update s.reads s.c a s.c)
    rw [Function.update_self]
    exact hq
  · intro i hi hne
    have hic : i ≠ s.c := fun he => hne he rfl
    show (Function.update s.reads s.c a i).inflight = []
    rw [hold i hic]
    exact h.idle i hi fun he => absurd he hic
  · show s.left = (if LoadPc.setup = .cancel then _ else _) - _
    rw [if_neg (fun hh => (by cases hh)), h.left_eq (not_cancel hp),
      called_update_of_le s.reads a (Nat.le_refl _)]
  · rintro (hq' | hq') <;> cases hq'
  · exact fun hh => (by cases hh)
  · exact fun r hh => (by cases hh)

/-- The read of the chunk could not be started: another try, or the end of the loop. -/
theorem Loading.areadFailed (h : Loading conf s) {a : Aio} (hp : s.pc = .aread ∨ s.pc = .setup)
    (hin : a.inflight = []) (e : Errno) :
    Loading conf (Shfs.areadFailed conf { s with reads := Function.update s.reads s.c a } e) := by
  have hlt := h.lt hp
  have hold : ∀ i, i ≠ s.c → Function.update s.reads s.c a i = s.reads i := fun i hi =>
    Function.update_of_ne hi ..
  have hleft := h.left_eq (not_cancel hp)
  have hcalled := called_update_of_le s.reads a (Nat.le_refl s.c)
  have hstarted : ∀ i < s.c, Started (Function.update s.reads s.c a i) := by
    intro i hi
    rw [hold i (by omega)]
    exact h.started i hi
  have hidle : ∀ i, s.c ≤ i → (Function.update s.reads s.c a i).inflight = [] := by
    intro i hi
    by_cases hic : i = s.c
    · rw [hic, Function.update_self]
      exact hin
    · rw [hold i hic]
      exact h.idle i hi fun he => absurd he hic
  unfold Shfs.areadFailed
  split
  · refine ⟨h.lost, hstarted, fun hq => (by cases hq), fun i hi _ => hidle i hi, h.bufs, fun _ => h.buf hp,
      h.done, ?_, fun _ => hlt, ?_, fun hh => (by cases hh), fun r hh => (by cases hh)⟩
    · show s.left = (if LoadPc.aread = .cancel then _ else _) - _
      rw [if_neg (fun hh => (by cases hh)), hcalled]
      exact hleft
    · rintro (hq | hq) <;> cases hq
  · refine ⟨h.lost, hstarted, fun hq => (by cases hq), fun i hi _ => hidle i hi, h.bufs, ?_, ?_, ?_,
      fun _ => hlt, ?_, fun hh => (by cases hh), fun r hh => (by cases hh)⟩
    · rintro (hq | hq) <;> cases hq
    · -- the last callback has not been, while a chunk is left
      intro hd
      have hzero := h.done hd
      have hle := called_le s.reads s.c
      omega
    · show s.left - ((conf.htableLen : Int) - s.c) = (if LoadPc.cancel = .cancel then (s.c : Int) else _) -
        ((called (Function.update s.reads s.c a) s.c : Nat) : Int)
      rw [if_pos rfl, hcalled]
      omega
    · rintro (hq | hq) <;> cases hq

/-- A completion, and the callback if it is the last one. -/
theorem readNext_complete (i strp : Nat) (ret : Int) : readNext conf s i (.complete strp ret) =
    if (s.reads i).calls.length < (shfsAioCb (s.reads i) strp ret).calls.length then
      loadVolHtableCb { s with reads := Function.update s.reads i (shfsAioCb (s.reads i) strp ret) }
        (shfsAioCb (s.reads i) strp ret).ret
    else .ok { s with reads := Function.update s.reads i (shfsAioCb (s.reads i) strp ret) } := by
  unfold readNext
  simp only [aioNext, bind, Except.bind]
  split
  · cases loadVolHtableCb { s with reads := Function.update s.reads i (shfsAioCb (s.reads i) strp ret) }
      (shfsAioCb (s.reads i) strp ret).ret <;> rfl
  · rfl

/-- A completion of a started read; it may run the callback. -/
theorem Loading.complete (h : Loading conf s) {i strp : Nat} {ret : Int} (hi : i < s.c)
    (hin : strp ∈ (s.reads i).inflight) :
    ∃ t, readNext conf s i (.complete strp ret) = .ok t ∧ Loading conf t := by
  have hcalls := (h.started i hi).calls (List.ne_nil_of_mem hin)
  have hlt := called_lt s.reads hi hcalls
  have hc := h.le
  have hleft := h.left
  have hpos : 0 < s.left := by
    rw [hleft]
    split <;> omega
  have hstart := (h.started i hi).complete hin ret
  generalize ha : shfsAioCb (s.reads i) strp ret = a at hstart
  -- the count of callbacks changes with the last stripe only
  have hcount := called_update s.reads a hi hcalls
  have hold : ∀ j, j ≠ i → Function.update s.reads i a j = s.reads j := fun j hj =>
    Function.update_of_ne hj ..
  have hstarted : ∀ j < s.c, Started (Function.update s.reads i a j) := by
    intro j hj
    by_cases hji : j = i
    · rw [hji, Function.update_self]
      exact hstart
    · rw [hold j hji]
      exact h.started j hj
  have hqueuing : s.pc = .setup → Queuing (Function.update s.reads i a s.c) := by
    intro hp
    rw [hold s.c (by omega)]
    exact h.queuing hp
  have hidle : ∀ j, s.c ≤ j → (j = s.c → s.pc ≠ .setup) → (Function.update s.reads i a j).inflight = [] := by
    intro j hj hne
    rw [hold j (by omega)]
    exact h.idle j hj hne
  rw [readNext_complete, ha, hcalls]
  by_cases hcb : a.calls = []
  · -- stripes of the read are left
    rw [hcb, if_neg (by simp)]
    rw [hcb] at hcount
    refine ⟨_, rfl, h.lost, hstarted, hqueuing, hidle, h.bufs, h.buf, h.done, ?_, h.here⟩
    rw [hcount, hleft]
    simp
  · rw [if_pos (by simpa using List.length_pos_of_ne_nil hcb)]
    rw [if_pos hcb] at hcount
    unfold loadVolHtableCb
    rw [if_neg (by show ¬ s.left = 0; omega)]
    refine ⟨_, rfl, h.lost, hstarted, hqueuing, hidle, h.bufs, h.buf, ?_, ?_, h.here⟩
    · intro hd
      show s.left - 1 = 0
      by_contra hne
      have hd' : (if s.left - 1 = 0 then true else s.done) = true := hd
      rw [if_neg hne] at hd'
      have hzero := h.done hd'
      omega
    · show s.left - 1 = _ - ((called (Function.update s.reads i a) s.c : Nat) : Int)
      rw [hcount, hleft]
      push_cast
      omega

/-- The loop begins. -/
theorem loading_start (conf : LoadConf) :
    Loading conf
      (loadLoop conf { HtableLoad.start with left := conf.htableLen, done := false, ret := 0 } 0) := by
  have hnew : (if 0 < conf.htableLen then LoadPc.malloc else .btable) = .malloc ∧ 0 < conf.htableLen ∨
      (if 0 < conf.htableLen then LoadPc.malloc else .btable) = .btable ∧ 0 = conf.htableLen := by
    by_cases hlen : 0 < conf.htableLen
    · exact .inl ⟨if_pos hlen, hlen⟩
    · exact .inr ⟨if_neg hlen, by omega⟩
  have hcalled : called HtableLoad.start.reads 0 = 0 := Nat.le_zero.1 (called_le _ 0)
  unfold loadLoop
  refine ⟨rfl, fun i hi => absurd hi (Nat.not_lt_zero i), ?_, fun i _ _ => rfl,
    fun i hi => absurd hi (Nat.not_lt_zero i), ?_, fun hd => (by cases hd), ?_, ?_, ?_, ?_, ?_⟩
  · intro hq
    rcases hnew with ⟨he, -⟩ | ⟨he, -⟩ <;> cases he.symm.trans hq
  · rintro (hq | hq) <;> rcases hnew with ⟨he, -⟩ | ⟨he, -⟩ <;> cases he.symm.trans hq
  · show (conf.htableLen : Int) =
      (if (if 0 < conf.htableLen then LoadPc.malloc else .btable) = .cancel then _ else _) -
        ((called HtableLoad.start.reads 0 : Nat) : Int)
    rw [hcalled, if_neg]
    · simp
    · intro hq
      rcases hnew with ⟨he, -⟩ | ⟨he, -⟩ <;> cases he.symm.trans hq
  · rcases hnew with ⟨he, hlen⟩ | ⟨he, -⟩
    · exact fun _ => hlen
    · rintro (hq | hq | hq | hq) <;> cases he.symm.trans hq
  · rcases hnew with ⟨he, -⟩ | ⟨he, hlen⟩
    · rintro (hq | hq) <;> cases he.symm.trans hq
    · exact fun _ => hlen
  · intro hq
    rcases hnew with ⟨he, -⟩ | ⟨he, -⟩ <;> cases he.symm.trans hq
  · intro r hq
    rcases hnew with ⟨he, -⟩ | ⟨he, -⟩ <;> cases he.symm.trans hq

/-- A chunk gets its buffer. -/
theorem Loading.malloc (h : Loading conf s) (hp : s.pc = .malloc) :
    Loading conf { s with bufs := insert s.c s.bufs, pc := .aread } := by
  have hleft := h.left_eq (by rw [hp]; exact fun hh => (by cases hh))
  refine ⟨h.lost, h.started, fun hq => (by cases hq), fun i hi _ => h.idle i hi fun _ => ?_,
    fun i hi => Finset.mem_insert_of_mem (h.bufs i hi), fun _ => Finset.mem_insert_self _ _, h.done, hleft,
    fun _ => h.here.1 (.inl hp), ?_, fun hh => (by cases hh), fun r hh => (by cases hh)⟩
  · rw [hp]
    exact fun hh => (by cases hh)
  · rintro (hq | hq) <;> cases hq

/-- The bucket table is there, and the function begins to wait. -/
theorem Loading.btable (h : Loading conf s) (hp : s.pc = .btable) :
    Loading conf { s with pc := .wait } := by
  have hleft := h.left_eq (by rw [hp]; exact fun hh => (by cases hh))
  refine ⟨h.lost, h.started, fun hq => (by cases hq), fun i hi _ => h.idle i hi fun _ => ?_, h.bufs, ?_,
    h.done, hleft, ?_, fun _ => h.here.2.1 (.inl hp), fun hh => (by cases hh), fun r hh => (by cases hh)⟩
  · rw [hp]
    exact fun hh => (by cases hh)
  · rintro (hq | hq) <;> cases hq
  · rintro (hq | hq | hq | hq) <;> cases hq

/-- The function gives up for lack of memory: everything is freed, and what is in flight is lost. -/
theorem Loading.noMemory (h : Loading conf s) (hset : s.pc ≠ .setup) (e : Errno) :
    (inFlight conf s = [] → LoadDone (errFreeChunkcache conf s e)) ∧
      ((errFreeChunkcache conf s e).lost = [] ↔ inFlight conf s = []) :=
  ⟨fun hnil =>
      @LoadDone.of_quiet conf { s with bufs := ∅ } h.left_nonneg (h.quiet_of_inFlight hset hnil) (some e),
    Iff.rfl⟩

/-- The polling is over: all reads are done. -/
theorem Loading.waited (h : Loading conf s) (hen : loadEnabled s .waited) :
    ∃ t, loadNext conf s .waited = .ok t ∧ LoadDone t := by
  have hset : s.pc ≠ .setup := by
    rcases hen with ⟨hp, -⟩ | ⟨hp, -⟩ <;> rw [hp] <;> exact fun hh => (by cases hh)
  have hzero : s.left = 0 := by
    rcases hen with ⟨-, hd⟩ | ⟨-, hz | hd⟩
    · exact h.done hd
    · exact hz
    · exact h.done hd
  have hquiet := h.quiet_of_left hset hzero
  unfold loadNext
  simp only
  split
  · exact ⟨_, rfl, .of_quiet h.left_nonneg hquiet none⟩
  · exact ⟨_, rfl, @LoadDone.of_quiet conf { s with bufs := ∅ } h.left_nonneg hquiet (some .eio)⟩

/-- A step of a read: a turn of its setup, the end of the setup, or a completion. -/
theorem Loading.read (h : Loading conf s) {i : Nat} {e : AioEvent} (hen : loadEnabled s (.read i e))
    (hcalm : Calm (s.reads i) e) : ∃ t, readNext conf s i e = .ok t ∧ Loading conf t := by
  by_cases hcomp : ∃ strp ret, e = .complete strp ret
  · rcases hcomp with ⟨strp, ret, rfl⟩
    have hin : strp ∈ (s.reads i).inflight := hen
    by_cases hi : i < s.c
    · exact h.complete hi hin
    · -- the read that is being set up: its callback does not run
      have hset : i = s.c ∧ s.pc = .setup := by
        by_contra hno
        have hnil := h.idle i (by omega) fun hic hp => hno ⟨hic, hp⟩
        rw [hnil] at hin
        cases hin
      rcases hset with ⟨rfl, hp⟩
      have hq := (h.queuing hp).complete hin hcalm
      rw [readNext_complete, hq.calls, if_neg (by simp)]
      refine ⟨_, rfl, ?_⟩
      have hload := h.setup (.inr hp) hq
      rwa [← hp] at hload
  · have hno : ∀ strp ret, e ≠ .complete strp ret := fun strp ret he => hcomp ⟨strp, ret, he⟩
    -- a step of the setup is one of the read at hand
    have hen' : s.pc = .setup ∧ i = s.c ∧ aioEnabled (s.reads i) e := by
      cases e with
      | complete strp ret => exact absurd rfl (hno strp ret)
      | enqueue r => exact hen
      | waited => exact hen
    rcases hen' with ⟨hp, rfl, haio⟩
    have hq := h.queuing hp
    have htotal : ∃ a, aioNext (s.reads s.c) e = .ok a := by
      cases e with
      | complete strp ret => exact absurd rfl (hno strp ret)
      | enqueue r => cases r <;> exact ⟨_, rfl⟩
      | waited =>
          rcases haio with ⟨⟨r, hc⟩, -⟩
          unfold aioNext
          rw [hc]
          exact ⟨_, rfl⟩
    rcases htotal with ⟨a, ha⟩
    rcases hq.setup ⟨haio, ha⟩ hno with ⟨hcalls, hcase⟩
    have hnext : readNext conf s s.c e =
        .ok (afterSetup conf { s with reads := Function.update s.reads s.c a } a.phase) := by
      unfold readNext
      rw [ha]
      simp only [bind, Except.bind]
      rw [hcalls, if_neg (by simp)]
      cases e with
      | complete strp ret => exact absurd rfl (hno strp ret)
      | enqueue r => rfl
      | waited => rfl
    refine ⟨_, hnext, ?_⟩
    rcases hcase with ⟨hph, hstart, -⟩ | ⟨r, hph, hin⟩ | ⟨hn1, hn2, hq'⟩
    · rw [hph]
      exact h.advance (.inr hp) hstart hcalls
    · rw [hph]
      exact h.areadFailed (.inr hp) hin r
    · have hset := h.setup (.inr hp) hq'
      unfold afterSetup
      cases hph : a.phase with
      | setup => exact hset
      | cancel r => exact hset
      | returned r =>
          cases r with
          | none => exact absurd hph hn1
          | some r => exact absurd hph (hn2 r)

/-- An attempt to start a read. -/
theorem Loading.aread (h : Loading conf s) (hp : s.pc = .aread) (avail : Nat → Nat) (token : Bool) :
    ∃ t, loadNext conf s (.aread avail token) = .ok t ∧ Loading conf t := by
  unfold loadNext
  simp only
  cases hstart : aioStart conf.geom true avail token (conf.htableRef + s.c) 1 with
  | error e =>
      refine ⟨_, rfl, ?_⟩
      have hidle : (s.reads s.c).inflight = [] := h.idle s.c (Nat.le_refl _) fun _ => by
        rw [hp]
        exact fun hh => (by cases hh)
      have hfail := h.areadFailed (.inl hp) hidle e
      rwa [Function.update_eq_self] at hfail
  | ok a =>
      refine ⟨_, rfl, ?_⟩
      rcases aioStart_started hstart with ⟨-, hcalls, ⟨hph, hq⟩ | ⟨hph, hst⟩⟩
      · rw [hph]
        exact h.setup (.inl hp) hq
      · rw [hph]
        exact h.advance (.inl hp) hst hcalls

/-- Once the function has returned, only requests of its reads complete. -/
theorem enabled_returned {e : LoadEvent} {r : Option Errno} (hp : s.pc = .returned r)
    (hen : loadEnabled s e) : ∃ i strp ret, e = .read i (.complete strp ret) := by
  cases e with
  | table ok => cases hp.symm.trans hen
  | malloc ok => cases hp.symm.trans hen
  | btable ok => cases hp.symm.trans hen
  | aread avail token => cases hp.symm.trans hen
  | read i e =>
      cases e with
      | complete strp ret => exact ⟨i, strp, ret, rfl⟩
      | enqueue r' => cases hp.symm.trans hen.1
      | waited => cases hp.symm.trans hen.1
  | waited =>
      rcases hen with ⟨hw, -⟩ | ⟨hw, -⟩
      · cases hp.symm.trans hw
      · cases hp.symm.trans hw

/-- One step with calm reads: the function goes on without a fault, and loses a read exactly if memory
runs out while one is in flight. -/
theorem load_step (h : LoadOk conf s) {e : LoadEvent} (hen : loadEnabled s e) (hcalm : CalmReads s e) :
    ∃ t, loadNext conf s e = .ok t ∧ (AllocOk conf s e → LoadOk conf t) ∧
      (t.lost = [] ↔ AllocOk conf s e) := by
  rcases h with (rfl | h) | h
  · cases e with
    | table ok =>
        cases ok with
        | true => exact ⟨_, rfl, fun _ => .inl (.inr (loading_start conf)), ⟨fun _ => trivial, fun _ => rfl⟩⟩
        | false =>
            have hdone : LoadDone (leaveLoad conf HtableLoad.start (some .enomem)) :=
              .of_quiet (Int.le_refl 0) (fun i => rfl) _
            exact ⟨_, rfl, fun _ => .inr hdone, ⟨fun _ => trivial, fun _ => hdone.lost⟩⟩
    | malloc ok => cases hen
    | btable ok => cases hen
    | aread avail token => cases hen
    | read i e =>
        cases e with
        | complete strp ret => cases (hen : strp ∈ [])
        | enqueue r => cases hen.1
        | waited => cases hen.1
    | waited =>
        rcases hen with ⟨hp, -⟩ | ⟨hp, -⟩ <;> cases hp
  · cases e with
    | table ok => exact absurd hen h.here.2.2.1
    | malloc ok =>
        have hp : s.pc = .malloc := hen
        cases ok with
        | true => exact ⟨_, rfl, fun _ => .inl (.inr (h.malloc hp)), ⟨fun _ => trivial, fun _ => h.lost⟩⟩
        | false =>
            rcases h.noMemory (by rw [hp]; exact fun hh => (by cases hh)) .enomem with ⟨h1, h2⟩
            exact ⟨_, rfl, fun hok => .inr (h1 hok), h2⟩
    | btable ok =>
        have hp : s.pc = .btable := hen
        cases ok with
        | true => exact ⟨_, rfl, fun _ => .inl (.inr (h.btable hp)), ⟨fun _ => trivial, fun _ => h.lost⟩⟩
        | false =>
            rcases h.noMemory (by rw [hp]; exact fun hh => (by cases hh)) .enomem with ⟨h1, h2⟩
            exact ⟨_, rfl, fun hok => .inr (h1 hok), h2⟩
    | aread avail token =>
        rcases h.aread hen avail token with ⟨t, ht, hload⟩
        exact ⟨t, ht, fun _ => .inl (.inr hload), ⟨fun _ => trivial, fun _ => hload.lost⟩⟩
    | read i e =>
        rcases h.read hen hcalm with ⟨t, ht, hload⟩
        exact ⟨t, ht, fun _ => .inl (.inr hload), ⟨fun _ => trivial, fun _ => hload.lost⟩⟩
    | waited =>
        rcases h.waited hen with ⟨t, ht, hdone⟩
        exact ⟨t, ht, fun _ => .inr hdone, ⟨fun _ => trivial, fun _ => hdone.lost⟩⟩
  · -- the function has returned: only a read in flight could do a step
    rcases h.pc with ⟨r, hp⟩
    rcases enabled_returned hp hen with ⟨i, strp, ret, rfl⟩
    have hin : strp ∈ (s.reads i).inflight := hen
    rw [h.quiet i] at hin
    cases hin

theorem LoadOk.left_nonneg (h : LoadOk conf s) : 0 ≤ s.left := by
  rcases h with (rfl | h) | h
  · exact Int.le_refl 0
  · exact h.left_nonneg
  · exact h.left

theorem LoadOk.alive (h : LoadOk conf s) : ReadsAlive s := by
  intro i hin
  rcases h with (rfl | h) | h
  · exact absurd rfl hin
  · refine ⟨?_, h.here.2.2.2⟩
    by_cases hi : i < s.c
    · exact h.bufs i hi
    · by_cases hic : i = s.c ∧ s.pc = .setup
      · rw [hic.1]
        exact h.buf (.inr hic.2)
      · exact absurd (h.idle i (by omega) fun he hp => hic ⟨he, hp⟩) hin
  · exact absurd (h.quiet i) hin

/-- What is lost stays lost: a function that has returned only sees completions. -/
theorem returned_step {e : LoadEvent} {r : Option Errno} (hp : s.pc = .returned r)
    (hs : (htableLoad conf).Step s e t) : t.pc = .returned r ∧ t.lost = s.lost := by
  rcases hs with ⟨hen, hn⟩
  rcases enabled_returned hp hen with ⟨i, strp, ret, rfl⟩
  have hn' : readNext conf s i (.complete strp ret) = .ok t := hn
  rw [readNext_complete] at hn'
  split at hn'
  · unfold loadVolHtableCb at hn'
    split at hn'
    · cases hn'
    · obtain rfl := Except.ok.inj hn'
      exact ⟨hp, rfl⟩
  · obtain rfl := Except.ok.inj hn'
    exact ⟨hp, rfl⟩

/-- Where a read is lost the function returns. -/
theorem returned_of_not_allocOk {e : LoadEvent} (hs : (htableLoad conf).Step s e t) (h : ¬ AllocOk conf s e) :
    ∃ r, t.pc = .returned r := by
  rcases hs with ⟨hen, hn⟩
  cases e with
  | malloc ok =>
      cases ok with
      | true => exact absurd trivial h
      | false =>
          obtain rfl := Except.ok.inj hn
          exact ⟨_, rfl⟩
  | btable ok =>
      cases ok with
      | true => exact absurd trivial h
      | false =>
          obtain rfl := Except.ok.inj hn
          exact ⟨_, rfl⟩
  | table ok => exact absurd trivial h
  | aread avail token => exact absurd trivial h
  | read i e => exact absurd trivial h
  | waited => exact absurd trivial h

end

/-! ## Loading the table -/

/-- In the runs whose reads are calm, no read is in flight when the function frees its buffers or returns,
exactly if memory only ever runs out while none is; then what a read in flight works with is there in every
state, `left` is not below zero, and no callback finds it at zero. Calm is a run in which no completion
catches up with the setup of its own read. -/
theorem load_releases_iff {conf : LoadConf} {es : List LoadEvent} {s : HtableLoad}
    (hrun : ((htableLoad conf).restrict CalmReads).Run .start es s) :
    (s.lost = [] ↔ (((htableLoad conf).restrict CalmReads).restrict (AllocOk conf)).Run .start es s) ∧
    ((((htableLoad conf).restrict CalmReads).restrict (AllocOk conf)).Run .start es s →
      ReadsAlive s ∧ 0 ≤ s.left ∧
        ∀ e, loadEnabled s e → CalmReads s e → ∃ t, loadNext conf s e = .ok t) := by
  constructor
  · apply Machine.Run.iff_restrict
      (I := fun u => LoadOk conf u ∨ (∃ r, u.pc = .returned r) ∧ u.lost ≠ []) (P := fun u => u.lost = [])
      ?_ ?_ ?_ hrun (.inl (.inl (.inl rfl))) rfl
    · intro u e v hu hs
      rcases Machine.restrict_step.1 hs with ⟨hstep, hcalm⟩
      rcases hu with hu | ⟨⟨r, hp⟩, hlost⟩
      · rcases load_step hu hstep.1 hcalm with ⟨v', hv', hok, hlost⟩
        obtain rfl := Except.ok.inj (hv'.symm.trans hstep.2)
        by_cases ha : AllocOk conf u e
        · exact .inl (hok ha)
        · exact .inr ⟨returned_of_not_allocOk hstep ha, fun hnil => ha (hlost.1 hnil)⟩
      · rcases returned_step hp hstep with ⟨hp', hl⟩
        exact .inr ⟨⟨r, hp'⟩, hl ▸ hlost⟩
    · intro u e v hu hs hv
      rcases Machine.restrict_step.1 hs with ⟨hstep, hcalm⟩
      rcases hu with hu | ⟨⟨r, hp⟩, hlost⟩
      · rcases hu with (rfl | hu) | hu
        · rfl
        · exact hu.lost
        · exact hu.lost
      · exact ((returned_step hp hstep).2.symm.trans hv)
    · intro u e v hu hnil hs
      rcases Machine.restrict_step.1 hs with ⟨hstep, hcalm⟩
      rcases hu with hu | ⟨-, hlost⟩
      · rcases load_step hu hstep.1 hcalm with ⟨v', hv', -, hlost⟩
        obtain rfl := Except.ok.inj (hv'.symm.trans hstep.2)
        exact hlost
      · exact absurd hnil hlost
  · intro hgood
    have hok : LoadOk conf s := by
      refine hgood.invariant (fun u e v hu hs => ?_) (.inl (.inl rfl))
      rcases Machine.restrict_step.1 hs with ⟨hs', ha⟩
      rcases Machine.restrict_step.1 hs' with ⟨hstep, hcalm⟩
      rcases load_step hu hstep.1 hcalm with ⟨v', hv', hok, -⟩
      obtain rfl := Except.ok.inj (hv'.symm.trans hstep.2)
      exact hok ha
    refine ⟨hok.alive, hok.left_nonneg, fun e hen hcalm => ?_⟩
    rcases load_step hok hen hcalm with ⟨t, ht, -, -⟩
    exact ⟨t, ht⟩

/-- A table of two chunks, each with one stripe. -/
def twoChunks : LoadConf := ⟨.single, 3, 2⟩

/-- The read of the first chunk is queued. -/
def firstQueued : HtableLoad :=
  { HtableLoad.start with
    pc := .malloc, c := 1, left := 2, bufs := insert 0 ∅
    reads := Function.update (Function.update (fun _ => noAio) 0 ⟨3, 4, .setup, 0, 0, true, [], []⟩) 0
      ⟨4, 4, .returned none, 1, 0, true, [3], []⟩ }

theorem firstQueued_run : ((htableLoad twoChunks).restrict CalmReads).Run .start
    [.table true, .malloc true, .aread (fun _ => 32) true, .read 0 (.enqueue none)] firstQueued := by
  have e₁ : ((htableLoad twoChunks).restrict CalmReads).Step .start (.table true)
      { HtableLoad.start with pc := .malloc, left := 2 } := ⟨⟨rfl, trivial⟩, rfl⟩
  have e₂ : ((htableLoad twoChunks).restrict CalmReads).Step
      { HtableLoad.start with pc := .malloc, left := 2 } (.malloc true)
      { HtableLoad.start with pc := .aread, left := 2, bufs := insert 0 ∅ } := ⟨⟨rfl, trivial⟩, rfl⟩
  have e₃ : ((htableLoad twoChunks).restrict CalmReads).Step
      { HtableLoad.start with pc := .aread, left := 2, bufs := insert 0 ∅ } (.aread (fun _ => 32) true)
      { HtableLoad.start with
        pc := .setup, left := 2, bufs := insert 0 ∅
        reads := Function.update (fun _ => noAio) 0 ⟨3, 4, .setup, 0, 0, true, [], []⟩ } :=
    ⟨⟨rfl, trivial⟩, rfl⟩
  have e₄ : ((htableLoad twoChunks).restrict CalmReads).Step
      { HtableLoad.start with
        pc := .setup, left := 2, bufs := insert 0 ∅
        reads := Function.update (fun _ => noAio) 0 ⟨3, 4, .setup, 0, 0, true, [], []⟩ }
      (.read 0 (.enqueue none)) firstQueued := ⟨⟨⟨rfl, rfl, rfl⟩, trivial⟩, rfl⟩
  exact .cons e₁ (.cons e₂ (.cons e₃ (.single e₄)))

/-- One read is in flight, and nothing is lost yet. -/
theorem load_releases_iff_one : firstQueued.lost = [] ∧ (firstQueued.reads 0).inflight = [3] ∧
    (firstQueued.lost = [] ↔ (((htableLoad twoChunks).restrict CalmReads).restrict (AllocOk twoChunks)).Run .start
      [.table true, .malloc true, .aread (fun _ => 32) true, .read 0 (.enqueue none)] firstQueued) ∧
    ((((htableLoad twoChunks).restrict CalmReads).restrict (AllocOk twoChunks)).Run .start
        [.table true, .malloc true, .aread (fun _ => 32) true, .read 0 (.enqueue none)] firstQueued →
      ReadsAlive firstQueued ∧ 0 ≤ firstQueued.left ∧
        ∀ e, loadEnabled firstQueued e → CalmReads firstQueued e →
          ∃ t, loadNext twoChunks firstQueued e = .ok t) :=
  ⟨rfl, rfl, load_releases_iff firstQueued_run⟩

/-- There is no buffer for the second chunk: that of the first is freed and the function returns, while the
read into it is in flight. -/
theorem load_frees_in_flight : ¬ ∀ (conf : LoadConf) (es : List LoadEvent) (s : HtableLoad),
    (htableLoad conf).Run .start es s → s.lost = [] ∧ ReadsAlive s := by
  intro hall
  have hrun := firstQueued_run.mono fun _ _ _ h => (Machine.restrict_step.1 h).1
  have hstep : (htableLoad twoChunks).Step firstQueued (.malloc false)
      (errFreeChunkcache twoChunks firstQueued .enomem) := ⟨rfl, rfl⟩
  exact absurd (hall _ _ _ (hrun.snoc hstep)).1 (by decide)

end Minipython.Shfs
