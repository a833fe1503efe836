/-
# Minipython.Shfs.Aio — striped requests (shfs.c, shfs_aio_chunk)

A chunk request becomes one request per stripe. `infly` is raised after each stripe is queued and
lowered by `_shfs_aio_cb`, which runs the caller's callback whenever it reaches zero. While a stripe
waits for a slot of its device, `blkdev_async_io` yields, and completions of earlier stripes come in.

So zero means finished only if no completion catches up with the setup. `Calm` says just that for one
step, and `callback_once_iff` that a run is right exactly when all its steps are calm and there is a
stripe at all. Whatever the order, `infly` is the number of outstanding stripes.

The events are the next stripe of the setup loop, with what the driver answers, the completion of one in
flight, and the end of the wait behind a request that was cancelled. Where the driver refuses a stripe no
token is returned; `callback_once_iff` is about the calls that return one.

A request without stripes is one of no chunk, or one whose numbers wrap around `2 ^ 64`. Its token is
returned and its callback never runs.
-/
import Minipython.Lib.Machine
import Minipython.Shfs.Defs

namespace Minipython.Shfs

open Minipython.Lib

/-! ## Stripes -/

/-- The stripes `[start_s, end_s)` of a request, in 64-bit arithmetic. -/
def aioRange (g : VolGeom) (start len : Nat) : Nat × Nat :=
  match g.stripemode with
  | .combined => (wrap64 (start * g.nbMembers), wrap64 (wrap64 (start + len) * g.nbMembers))
  | .independent =>
      let startS := wrap64 (start + (g.nbMembers - 1))
      (startS, wrap64 (startS + len))

/-- `num_req_per_member`. -/
def numReqPerMember (g : VolGeom) (start len : Nat) : Nat :=
  wrap64 ((aioRange g start len).2 + u64Size - (aioRange g start len).1) / g.nbMembers

/-- The member of a stripe. -/
def stripeMember (g : VolGeom) (strp : Nat) : Nat := strp % g.nbMembers

/-- The stripe number on its member. -/
def stripeOnMember (g : VolGeom) (strp : Nat) : Nat := strp / g.nbMembers

/-! ## A request and its token -/

/-- Where `shfs_aio_chunk` is. -/
inductive AioPhase where
  /-- in the loop, about to queue the next stripe or waiting for its slot -/
  | setup
  /-- a stripe could not be queued: waiting for the others -/
  | cancel (e : Errno)
  /-- returned, with the token or with an error -/
  | returned (e : Option Errno)
  deriving DecidableEq, Repr

/-- The local state of a call and its token. `calls` records for each run of the callback the stripe the
loop was at and the stripes outstanding; `infly` is counted without wrap-around. -/
structure Aio where
  strp : Nat
  endS : Nat
  phase : AioPhase
  infly : Int
  ret : Int
  cb : Bool
  inflight : List Nat
  calls : List (Nat × List Nat)
  deriving DecidableEq, Repr

/-- `shfs_aio_chunk` up to its loop, for a caller with a callback. `avail` is the number of free request
objects of a member, `token` whether the pool has a token, which `_aiotoken_pool_objinit` resets. -/
def aioStart (g : VolGeom) (mounted : Bool) (avail : Nat → Nat) (token : Bool)
    (start len : Nat) : Except Errno Aio :=
  if !mounted then .error .enodev
  else if (List.range g.nbMembers).any fun m => avail m < numReqPerMember g start len then
    .error .eagain
  else
    match token with
    | false => .error .eagain
    | true =>
        let r := aioRange g start len
        .ok { strp := r.1, endS := r.2, infly := 0, ret := 0, cb := true, inflight := [], calls := []
              phase := if r.1 < r.2 then .setup else .returned none }

/-- `_shfs_aio_cb` for the stripe `strp`. -/
def shfsAioCb (s : Aio) (strp : Nat) (ret : Int) : Aio :=
  let s := { s with
    ret := if ret < 0 then ret else s.ret
    infly := s.infly - 1, inflight := s.inflight.erase strp }
  if s.infly = 0 ∧ s.cb = true then { s with calls := s.calls ++ [(s.strp, s.inflight)] } else s

/-- The events of a request. -/
inductive AioEvent where
  /-- `blkdev_async_io` returns for the next stripe -/
  | enqueue (e : Option Errno)
  /-- a queued stripe completes -/
  | complete (strp : Nat) (ret : Int)
  /-- `shfs_aio_wait` of a cancelled request ends -/
  | waited
  deriving DecidableEq, Repr

def aioEnabled (s : Aio) : AioEvent → Prop
  | .enqueue _ => s.phase = .setup
  | .complete strp _ => strp ∈ s.inflight
  | .waited => (∃ e, s.phase = .cancel e) ∧ s.infly = 0

def aioNext (s : Aio) : AioEvent → Except Fault Aio
  | .enqueue none =>
      .ok { s with
        strp := s.strp + 1, infly := s.infly + 1, inflight := s.strp :: s.inflight
        phase := if s.strp + 1 < s.endS then .setup else .returned none }
  | .enqueue (some e) => .ok { s with cb := false, phase := .cancel e }
  | .complete strp ret => .ok (shfsAioCb s strp ret)
  | .waited =>
      match s.phase with
      | .cancel e => .ok { s with phase := .returned (some e) }
      | _ => .ok s

/-- A request under its device. -/
def aio : Machine Aio AioEvent Fault := ⟨aioEnabled, aioNext⟩

/-- A completion that is not that of the last outstanding stripe while stripes are still to be queued. -/
def Calm (s : Aio) : AioEvent → Prop
  | .complete _ _ => s.phase = .setup → s.infly ≠ 1
  | _ => True

/-- A request that nobody has cancelled and whose loop is at `strp`. -/
structure AioInv (s : Aio) : Prop where
  infly : s.infly = s.inflight.length
  setup : s.phase = .setup → s.strp < s.endS ∧ s.cb = true
  returned : s.phase = .returned none → s.endS ≤ s.strp ∧ s.cb = true

theorem aioStart_inv {g : VolGeom} {m : Bool} {avail : Nat → Nat} {tok : Bool}
    {start len : Nat} {s : Aio} (h : aioStart g m avail tok start len = .ok s) :
    AioInv s ∧ s.calls = [] ∧ s.inflight = [] ∧ s.strp = (aioRange g start len).1 ∧
      s.endS = (aioRange g start len).2 ∧
      s.phase = if s.strp < s.endS then .setup else .returned none := by
  unfold aioStart at h
  by_cases hm : m = true
  · simp only [hm, Bool.not_true, Bool.false_eq_true, if_false] at h
    split at h
    · cases h
    · cases tok with
      | false => cases h
      | true =>
          cases h
          refine ⟨⟨rfl, fun hp => ?_, fun hp => ?_⟩, rfl, rfl, rfl, rfl, rfl⟩
          · dsimp only at hp ⊢
            split at hp
            · exact ⟨by assumption, rfl⟩
            · cases hp
          · dsimp only at hp ⊢
            split at hp
            · cases hp
            · exact ⟨by omega, rfl⟩
  · simp [hm] at h

theorem shfsAioCb_inv {s : Aio} {strp : Nat} {ret : Int} (h : AioInv s) (hs : strp ∈ s.inflight) :
    AioInv (shfsAioCb s strp ret) := by
  have hlen : s.infly - 1 = (s.inflight.erase strp).length := by
    rw [h.infly, List.length_erase_of_mem hs]
    have := List.length_pos_of_mem hs
    omega
  unfold shfsAioCb
  dsimp only
  split <;> exact ⟨hlen, h.setup, h.returned⟩

/-- One step keeps the invariant. -/
theorem aio_step {s t : Aio} {e : AioEvent} (h : AioInv s) (hs : aio.Step s e t) : AioInv t := by
  obtain ⟨hen, hnext⟩ := hs
  have hnext : aioNext s e = .ok t := hnext
  cases e with
  | enqueue r =>
      cases r with
      | none =>
          cases hnext
          have hset := h.setup hen
          refine ⟨by simp [h.infly], fun hp => ?_, fun hp => ?_⟩
          · dsimp only at hp ⊢
            split at hp
            · exact ⟨by assumption, hset.2⟩
            · cases hp
          · dsimp only at hp ⊢
            split at hp
            · cases hp
            · exact ⟨by omega, hset.2⟩
      | some e =>
          cases hnext
          exact ⟨h.infly, fun hp => (by cases hp), fun hp => (by cases hp)⟩
  | complete strp ret =>
      cases hnext
      exact shfsAioCb_inv h hen
  | waited =>
      obtain ⟨⟨e, hp⟩, -⟩ := hen
      simp only [aioNext, hp] at hnext
      cases hnext
      exact ⟨h.infly, fun hp => (by cases hp), fun hp => (by cases hp)⟩

/-! ## The callback -/

/-- How a step extends the record of callbacks: only the completion of the last outstanding stripe of a
request that is not cancelled runs it. -/
theorem aio_calls {s t : Aio} {e : AioEvent} (hs : aio.Step s e t) :
    t.calls = s.calls ∨ ∃ strp ret, e = .complete strp ret ∧ s.infly = 1 ∧ s.cb = true ∧
      t.calls = s.calls ++ [(s.strp, s.inflight.erase strp)] := by
  obtain ⟨hen, hnext⟩ := hs
  have hnext : aioNext s e = .ok t := hnext
  cases e with
  | enqueue r =>
      left
      cases r <;> (cases hnext; rfl)
  | complete strp ret =>
      cases hnext
      unfold shfsAioCb
      dsimp only
      by_cases hc : s.infly - 1 = 0 ∧ s.cb = true
      · right
        rw [if_pos hc]
        exact ⟨strp, ret, rfl, by omega, hc.2, rfl⟩
      · left
        rw [if_neg hc]
  | waited =>
      left
      obtain ⟨⟨e, hp⟩, -⟩ := hen
      simp only [aioNext, hp] at hnext
      cases hnext
      rfl

theorem aio_endS {s t : Aio} {e : AioEvent} (hs : aio.Step s e t) : t.endS = s.endS := by
  obtain ⟨hen, hnext⟩ := hs
  have hnext : aioNext s e = .ok t := hnext
  cases e with
  | enqueue r => cases r <;> (cases hnext; rfl)
  | complete strp ret =>
      cases hnext
      unfold shfsAioCb
      dsimp only
      split <;> rfl
  | waited =>
      obtain ⟨⟨e, hp⟩, -⟩ := hen
      simp only [aioNext, hp] at hnext
      cases hnext
      rfl

theorem aio_run_endS {s t : Aio} {es : List AioEvent} (h : aio.Run s es t) : t.endS = s.endS :=
  h.invariant (I := fun u => u.endS = s.endS) (fun _ _ _ hI hs => (aio_endS hs).trans hI) rfl

/-- Whatever the order of events, `infly` is the number of outstanding stripes. -/
theorem aio_infly {s t : Aio} {es : List AioEvent} (h : aio.Run s es t) (hs : AioInv s) :
    t.infly = t.inflight.length :=
  (h.invariant (fun _ _ _ hI hstep => aio_step hI hstep) hs).infly

/-- Records of callbacks are never lost. -/
theorem aio_calls_mono {s t : Aio} {es : List AioEvent} (h : aio.Run s es t) : s.calls ⊆ t.calls := by
  induction h with
  | nil s => exact fun _ hx => hx
  | cons hs _ ih =>
      intro x hx
      rcases aio_calls hs with hc | ⟨_, _, -, -, -, hc⟩
      · exact ih (hc ▸ hx)
      · exact ih (hc ▸ List.mem_append_left _ hx)

/-- A request that ran its callback behind the last stripe only had calm steps. -/
theorem calm_of_calls {s t : Aio} {es : List AioEvent} (h : aio.Run s es t) (hinv : AioInv s)
    (hc : ∀ c ∈ t.calls, t.endS ≤ c.1) : (aio.restrict Calm).Run s es t := by
  induction h with
  | nil s => exact .nil s
  | @cons s u t e es hs hrun ih =>
      have hend := aio_run_endS (.cons hs hrun)
      refine .cons (Machine.restrict_step.2 ⟨hs, ?_⟩) (ih (aio_step hinv hs) hc)
      cases e with
      | enqueue r => trivial
      | waited => trivial
      | complete strp ret =>
          intro hp h1
          -- the callback would have run with the loop still at `s.strp`
          obtain ⟨hlt, hcb⟩ := hinv.setup hp
          have hmem : (s.strp, s.inflight.erase strp) ∈ u.calls := by
            have hnext : aioNext s (.complete strp ret) = .ok u := hs.2
            cases hnext
            unfold shfsAioCb
            simp [h1, hcb]
          have := hc _ (aio_calls_mono hrun hmem)
          dsimp only at this
          omega

/-- What calm steps leave of the record: nothing while stripes are outstanding or still to be queued,
and afterwards the one run behind all of them. -/
def CalledOnce (first : Nat) (s : Aio) : Prop :=
  AioInv s ∧ first + s.inflight.length ≤ s.strp ∧
    match s.phase with
    | .setup => s.calls = []
    | .returned none => s.strp = max first s.endS ∧
        s.calls = if s.inflight = [] ∧ first < s.endS then [(s.endS, [])] else []
    | _ => True

theorem calledOnce_step {first : Nat} {s t : Aio} {e : AioEvent} (h : CalledOnce first s)
    (hs : (aio.restrict Calm).Step s e t) : CalledOnce first t := by
  obtain ⟨hstep, hcalm⟩ := Machine.restrict_step.1 hs
  obtain ⟨hinv, hfirst, hrec⟩ := h
  have hinv' := aio_step hinv hstep
  obtain ⟨hen, hnext⟩ := hstep
  have hnext : aioNext s e = .ok t := hnext
  refine ⟨hinv', ?_⟩
  cases e with
  | waited =>
      obtain ⟨⟨e, hp⟩, -⟩ := hen
      simp only [aioNext, hp] at hnext
      cases hnext
      exact ⟨hfirst, trivial⟩
  | enqueue r =>
      have hp : s.phase = .setup := hen
      rw [hp] at hrec
      cases r with
      | some e =>
          cases hnext
          exact ⟨hfirst, trivial⟩
      | none =>
          cases hnext
          refine ⟨by simp only [List.length_cons]; omega, ?_⟩
          have hlt := (hinv.setup hp).1
          dsimp only
          by_cases hend : s.strp + 1 < s.endS
          · rw [if_pos hend]
            exact hrec
          · rw [if_neg hend]
            refine ⟨by omega, ?_⟩
            simpa using hrec
  | complete strp ret =>
      cases hnext
      have hfields : (shfsAioCb s strp ret).phase = s.phase ∧
          (shfsAioCb s strp ret).strp = s.strp ∧ (shfsAioCb s strp ret).endS = s.endS ∧
          (shfsAioCb s strp ret).inflight = s.inflight.erase strp ∧
          (shfsAioCb s strp ret).calls = if s.infly - 1 = 0 ∧ s.cb = true then
            s.calls ++ [(s.strp, s.inflight.erase strp)] else s.calls := by
        unfold shfsAioCb
        dsimp only
        split <;> exact ⟨rfl, rfl, rfl, rfl, rfl⟩
      obtain ⟨h1, h2, h3, h4, h5⟩ := hfields
      rw [h1, h2, h3, h4, h5]
      have hmem : strp ∈ s.inflight := hen
      have hlen := List.length_erase_of_mem hmem
      refine ⟨by omega, ?_⟩
      cases hp : s.phase with
      | setup =>
          rw [hp] at hrec
          have hne : s.infly ≠ 1 := hcalm hp
          have hno : ¬(s.infly - 1 = 0 ∧ s.cb = true) := fun hc => hne (by omega)
          rw [if_neg hno]
          exact hrec
      | cancel e => trivial
      | returned r =>
          cases r with
          | some e => trivial
          | none =>
              rw [hp] at hrec
              obtain ⟨hend, hcalls⟩ := hrec
              obtain ⟨-, hcb⟩ := hinv.returned hp
              have hne : s.inflight ≠ [] := List.ne_nil_of_mem hmem
              rw [if_neg (fun hc => hne hc.1)] at hcalls
              refine ⟨hend, ?_⟩
              have hpos := List.length_pos_of_mem hmem
              by_cases hlast : s.infly - 1 = 0
              · -- the last stripe of a request that has any
                have hnil : s.inflight.erase strp = [] := by
                  rw [← List.length_eq_zero_iff, hlen]
                  have := hinv.infly
                  omega
                have hany : first < s.endS := by omega
                rw [if_pos ⟨hlast, hcb⟩, hcalls, if_pos ⟨hnil, hany⟩, hnil,
                  show s.strp = s.endS by omega]
                rfl
              · have hnn : s.inflight.erase strp ≠ [] := by
                  rw [Ne, ← List.length_eq_zero_iff, hlen]
                  have := hinv.infly
                  omega
                rw [if_neg (fun hc => hlast hc.1), if_neg (fun hc => hnn hc.1)]
                exact hcalls

/-- A call that returned its token and whose stripes have all completed: the callback ran once, behind
the last completion, and the counter was never below zero, if and only if there was a stripe and no
completion caught up with the setup. -/
theorem callback_once_iff {g : VolGeom} {mounted : Bool} {avail : Nat → Nat} {tok : Bool}
    {start len : Nat} {s t : Aio} {es : List AioEvent}
    (hcall : aioStart g mounted avail tok start len = .ok s) (hrun : aio.Run s es t)
    (hret : t.phase = .returned none) (hdone : t.inflight = []) :
    (t.calls = [(s.endS, [])] ∧ ∀ es' u, es' <+: es → aio.Run s es' u → 0 ≤ u.infly) ↔
      (aioRange g start len).1 < (aioRange g start len).2 ∧ (aio.restrict Calm).Run s es t := by
  obtain ⟨hinv, hcalls, hin, hstrp, hends, hphase⟩ := aioStart_inv hcall
  rw [← hstrp, ← hends]
  have hstart : CalledOnce s.strp s := by
    refine ⟨hinv, by simp [hin], ?_⟩
    rw [hphase]
    by_cases hlt : s.strp < s.endS
    · rw [if_pos hlt]
      exact hcalls
    · rw [if_neg hlt]
      refine ⟨by omega, ?_⟩
      rw [if_neg (fun hc => hlt hc.2), hcalls]
  have hend := aio_run_endS hrun
  have hlast : (aio.restrict Calm).Run s es t →
      t.calls = if t.inflight = [] ∧ s.strp < t.endS then [(t.endS, [])] else [] := fun hcalm => by
    obtain ⟨-, -, hrec⟩ := hcalm.invariant (I := CalledOnce s.strp)
      (fun _ _ _ hI hs => calledOnce_step hI hs) hstart
    rw [hret] at hrec
    exact hrec.2
  constructor
  · rintro ⟨honce, -⟩
    have hcalm := calm_of_calls hrun hinv fun c hc => by
      rw [honce] at hc
      rw [List.mem_singleton.1 hc, hend]
    refine ⟨?_, hcalm⟩
    by_contra hlt
    rw [hlast hcalm, if_neg (fun hc => hlt (hend ▸ hc.2))] at honce
    cases honce
  · rintro ⟨hlt, hcalm⟩
    constructor
    · rw [hlast hcalm, if_pos ⟨hdone, hend ▸ hlt⟩, hend]
    · intro es' u _ hu
      rw [aio_infly hu hinv]
      exact Int.natCast_nonneg _

/-- One chunk on two members in combined mode is two stripes. -/
def pairGeom : VolGeom := .pair .combined

/-- The first stripe completes while the second waits for a slot: the callback runs twice, first with a
stripe to go. -/
theorem callback_early : ∃ s es t, aioStart pairGeom true (fun _ => 32) true 0 1 = .ok s ∧
    aio.Run s es t ∧ t.phase = .returned none ∧ t.inflight = [] ∧ s.endS = 2 ∧
    t.calls = [(1, []), (2, [])] := by
  have e₁ : aio.Step ⟨0, 2, .setup, 0, 0, true, [], []⟩ (.enqueue none)
      ⟨1, 2, .setup, 1, 0, true, [0], []⟩ := ⟨rfl, rfl⟩
  have e₂ : aio.Step ⟨1, 2, .setup, 1, 0, true, [0], []⟩ (.complete 0 0)
      ⟨1, 2, .setup, 0, 0, true, [], [(1, [])]⟩ := ⟨List.mem_singleton_self 0, rfl⟩
  have e₃ : aio.Step ⟨1, 2, .setup, 0, 0, true, [], [(1, [])]⟩ (.enqueue none)
      ⟨2, 2, .returned none, 1, 0, true, [1], [(1, [])]⟩ := ⟨rfl, rfl⟩
  have e₄ : aio.Step ⟨2, 2, .returned none, 1, 0, true, [1], [(1, [])]⟩ (.complete 1 0)
      ⟨2, 2, .returned none, 0, 0, true, [], [(1, []), (2, [])]⟩ := ⟨List.mem_singleton_self 1, rfl⟩
  exact ⟨_, _, _, rfl, .cons e₁ (.cons e₂ (.cons e₃ (.single e₄))), rfl, rfl, rfl, rfl⟩

/-- The same request with both completions behind the setup. -/
theorem callback_once_pair : ∃ s es t, aioStart pairGeom true (fun _ => 32) true 0 1 = .ok s ∧
    aio.Run s es t ∧ t.calls = [(2, [])] := by
  have e₁ : (aio.restrict Calm).Step ⟨0, 2, .setup, 0, 0, true, [], []⟩ (.enqueue none)
      ⟨1, 2, .setup, 1, 0, true, [0], []⟩ := ⟨⟨rfl, trivial⟩, rfl⟩
  have e₂ : (aio.restrict Calm).Step ⟨1, 2, .setup, 1, 0, true, [0], []⟩ (.enqueue none)
      ⟨2, 2, .returned none, 2, 0, true, [1, 0], []⟩ := ⟨⟨rfl, trivial⟩, rfl⟩
  have e₃ : (aio.restrict Calm).Step ⟨2, 2, .returned none, 2, 0, true, [1, 0], []⟩ (.complete 0 0)
      ⟨2, 2, .returned none, 1, 0, true, [1], []⟩ :=
    ⟨⟨by show 0 ∈ [1, 0]; decide, fun hp => by cases hp⟩, rfl⟩
  have e₄ : (aio.restrict Calm).Step ⟨2, 2, .returned none, 1, 0, true, [1], []⟩ (.complete 1 0)
      ⟨2, 2, .returned none, 0, 0, true, [], [(2, [])]⟩ :=
    ⟨⟨List.mem_singleton_self 1, fun hp => by cases hp⟩, rfl⟩
  have hcalm := Machine.Run.cons e₁ (.cons e₂ (.cons e₃ (.single e₄)))
  have hrun := hcalm.mono fun _ _ _ h => (Machine.restrict_step.1 h).1
  have hcall : aioStart pairGeom true (fun _ => 32) true 0 1 =
      .ok ⟨0, 2, .setup, 0, 0, true, [], []⟩ := rfl
  exact ⟨_, _, _, hcall, hrun, ((callback_once_iff hcall hrun rfl rfl).2 ⟨by decide, hcalm⟩).1⟩

end Minipython.Shfs
