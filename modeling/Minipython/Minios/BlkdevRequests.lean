/-
# Minipython.Minios.BlkdevRequests — the request objects of a device (blkdev.h, blkdev.c)

A request takes an object of `reqpool`, and the completion callback puts it back. In between the driver may
be busy, so a call of `blkdev_async_io` waits for a slot and tries again, and a call of `blkdev_sync_io` waits
for its completion; meanwhile other calls run and requests complete. `blkdevIo` is the device under all of
them, where the driver answers each attempt with a success, `-EBUSY` or another error.

On any other error the object stays picked for good. `blkdev_async_io` returns the number. `blkdev_sync_io`
does the same, but it cannot tell the driver's `-EAGAIN` from a lack of request objects: there it polls, yields
and tries again, and takes one more object each time. `Accepted` is a step without such an answer, and
`requests_conserved_iff` says that the objects add up exactly in the runs of such steps.

The objects are counted by `Accounts`: those in the pool, those with the driver or a running
callback, those of calls that wait, and `k` that nobody has any more. A step keeps the sum, and it raises `k` exactly if it is not `Accepted`.
As `k` never comes down again, a run has lost nothing if and only if each of its steps was accepted.

Closing an idle device frees the pool, and `free_mempool` trips over an object that is missing. So the same
condition says when a device can be closed. The number of objects is any that `Mempool` admits;
`MAX_REQUESTS` is what a page of ring slots leaves, and far below its limit.
-/
import Minipython.Minios.Blkdev

namespace Minipython.Minios

open Minipython.Lib
open Minipython.Shfs (Fault)

/-! ## The device and its calls -/

/-- The callback in a request: `_blkdev_sync_io_cb`, or that of a caller, if it has one. -/
inductive ReqCb where
  | sync
  | user (argp : Option Nat)
  deriving DecidableEq, Repr

/-- `struct _blkdev_req`. -/
structure BlkdevReq where
  aiocb : Aiocb
  sector : UInt64
  nbSectors : UInt64
  write : Bool
  cb : ReqCb
  deriving DecidableEq, Repr

/-- A call that has not returned. -/
inductive BlkdevCall where
  /-- at `retry`, with its object filled in: the driver had no slot -/
  | enqueue (o : Nat)
  /-- `blkdev_sync_io` when no object was free, or the driver answered as if there was none -/
  | again (a : IoArgs)
  /-- `blkdev_sync_io` until its request completes -/
  | wait (o : Nat)
  /-- the same with the result -/
  | done (ret : Int)
  deriving DecidableEq, Repr

/-- A device with the requests that the driver has, the calls that have not returned, the objects whose user
callback is running, and what the last event has returned to a caller. -/
structure BlkdevIo where
  info : BlkfrontInfo
  reqpool : Mempool
  req : Nat → BlkdevReq
  inflight : List Nat
  calls : List BlkdevCall
  callbacks : List Nat
  ret : Option Int

/-- A device after `open_blkdev`, with memory that holds anything in its request objects. -/
def newBlkdevIo (info : BlkfrontInfo) (reqpool : Mempool) (req : Nat → BlkdevReq) : BlkdevIo :=
  ⟨info, reqpool, req, [], [], [], none⟩

/-- `blkdev_async_io_nocheck` in front of `retry`: pick an object and fill it in. -/
def pickReq (s : BlkdevIo) (a : IoArgs) (cb : ReqCb) : Option Nat × BlkdevIo :=
  match mempoolPick s.reqpool with
  | (none, p) => (none, { s with reqpool := p })
  | (some o, p) =>
      (some o, { s with
        reqpool := p
        req := Function.update s.req o ⟨blkdevAiocb s.info a, a.start, a.len, a.write, cb⟩ })

/-- The arguments of the call that filled in a request object. -/
def BlkdevReq.args (r : BlkdevReq) : IoArgs := ⟨r.sector, r.nbSectors, r.write, r.aiocb.buf⟩

/-- `retry`, where `blkfront_aio_enqueue` answers `answer`. A call of `blkdev_sync_io` goes on to wait. An
error leaves the object out of the pool: `blkdev_async_io` returns it, and so does `blkdev_sync_io`, but for
`-EAGAIN`, which it takes for a lack of objects and tries again with a new one. -/
def enqueueReq (s : BlkdevIo) (o : Nat) (answer : Int) : BlkdevIo :=
  if answer = -ebusy then { s with calls := .enqueue o :: s.calls, ret := none }
  else if answer < 0 then
    match (s.req o).cb with
    | .sync =>
        if answer = -eagain then { s with calls := .again (s.req o).args :: s.calls, ret := none }
        else { s with ret := some answer }
    | .user _ => { s with ret := some answer }
  else
    match (s.req o).cb with
    | .sync => { s with inflight := o :: s.inflight, calls := .wait o :: s.calls, ret := none }
    | .user _ => { s with inflight := o :: s.inflight, ret := some answer }

/-- `blkdev_async_io`, up to its return or its first wait. -/
def blkdevAsyncIo (s : BlkdevIo) (a : IoArgs) (cb : Option Nat) (answer : Int) : BlkdevIo :=
  match blkdevIoCheck s.info a with
  | some e => { s with ret := some e }
  | none =>
      match pickReq s a (.user cb) with
      | (none, s) => { s with ret := some (-eagain) }
      | (some o, s) => enqueueReq s o answer

/-- A turn of `blkdev_sync_io_nocheck`. -/
def blkdevSyncIoNocheck (s : BlkdevIo) (a : IoArgs) (answer : Int) : BlkdevIo :=
  match pickReq s a .sync with
  | (none, s) => { s with calls := .again a :: s.calls, ret := none }
  | (some o, s) => enqueueReq s o answer

/-- `blkdev_sync_io`. -/
def blkdevSyncIo (s : BlkdevIo) (a : IoArgs) (answer : Int) : BlkdevIo :=
  match blkdevIoCheck s.info a with
  | some e => { s with ret := some e }
  | none => blkdevSyncIoNocheck s a answer

/-- `_blkdev_async_io_cb` for a request that has left the driver, up to the user callback if it has one. -/
def blkdevAsyncIoCb (s : BlkdevIo) (o : Nat) (ret : Int) : BlkdevIo :=
  match (s.req o).cb with
  | .sync =>
      { s with
        calls := s.calls.map fun c => if c = .wait o then .done ret else c
        reqpool := mempoolPut s.reqpool o, ret := none }
  | .user none => { s with reqpool := mempoolPut s.reqpool o, ret := none }
  | .user (some _) => { s with callbacks := o :: s.callbacks, ret := none }

inductive BlkdevEvent where
  | asyncIo (a : IoArgs) (cb : Option Nat) (answer : Int)
  | syncIo (a : IoArgs) (answer : Int)
  /-- `blkfront_wait_slot` returns, and the call tries again -/
  | slot (o : Nat) (answer : Int)
  /-- `blkdev_sync_io` tries again to get an object -/
  | again (a : IoArgs) (answer : Int)
  /-- the driver completes a request -/
  | complete (o : Nat) (ret : Int)
  /-- the user callback of a request returns -/
  | callbackEnd (o : Nat)
  /-- `blkdev_sync_io` returns the result -/
  | finish (ret : Int)
  deriving DecidableEq, Repr

def blkdevEnabled (s : BlkdevIo) : BlkdevEvent → Prop
  | .asyncIo _ _ _ | .syncIo _ _ => True
  | .slot o _ => .enqueue o ∈ s.calls
  | .again a _ => .again a ∈ s.calls
  | .complete o _ => o ∈ s.inflight
  | .callbackEnd o => o ∈ s.callbacks
  | .finish ret => .done ret ∈ s.calls

def blkdevNext (s : BlkdevIo) : BlkdevEvent → Except Fault BlkdevIo
  | .asyncIo a cb answer => .ok (blkdevAsyncIo s a cb answer)
  | .syncIo a answer => .ok (blkdevSyncIo s a answer)
  | .slot o answer => .ok (enqueueReq { s with calls := s.calls.erase (.enqueue o) } o answer)
  | .again a answer => .ok (blkdevSyncIoNocheck { s with calls := s.calls.erase (.again a) } a answer)
  | .complete o ret => .ok (blkdevAsyncIoCb { s with inflight := s.inflight.erase o } o ret)
  | .callbackEnd o =>
      .ok { s with
        callbacks := s.callbacks.erase o, reqpool := mempoolPut s.reqpool o, ret := none }
  | .finish ret => .ok { s with calls := s.calls.erase (.done ret), ret := some ret }

/-- A device under its callers and its driver. -/
def blkdevIo : Machine BlkdevIo BlkdevEvent Fault := ⟨blkdevEnabled, blkdevNext⟩

instance (s : BlkdevIo) (e : BlkdevEvent) : Decidable (blkdevIo.Enabled s e) :=
  match e with
  | .asyncIo _ _ _ | .syncIo _ _ => inferInstanceAs (Decidable True)
  | .slot o _ => inferInstanceAs (Decidable (BlkdevCall.enqueue o ∈ s.calls))
  | .again a _ => inferInstanceAs (Decidable (BlkdevCall.again a ∈ s.calls))
  | .complete o _ => inferInstanceAs (Decidable (o ∈ s.inflight))
  | .callbackEnd o => inferInstanceAs (Decidable (o ∈ s.callbacks))
  | .finish ret => inferInstanceAs (Decidable (BlkdevCall.done ret ∈ s.calls))

/-- No call is executing, and no callback. -/
def BlkdevIo.Quiet (s : BlkdevIo) : Prop := s.calls = [] ∧ s.callbacks = []

/-! ## Who has the objects -/

/-- An answer that is neither a success nor `-EBUSY`. -/
def Refused (answer : Int) : Prop := answer ≠ -ebusy ∧ answer < 0

instance (answer : Int) : Decidable (Refused answer) := inferInstanceAs (Decidable (_ ∧ _))

/-- A call with these arguments gets to the driver. -/
def Reaches (s : BlkdevIo) (a : IoArgs) : Prop :=
  blkdevIoCheck s.info a = none ∧ (mempoolPick s.reqpool).1 ≠ none

/-- The driver takes the request of this step, or has no slot. -/
def Accepted (s : BlkdevIo) : BlkdevEvent → Prop
  | .asyncIo a _ answer | .syncIo a answer => Reaches s a → ¬ Refused answer
  | .slot _ answer => ¬ Refused answer
  | .again _ answer => (mempoolPick s.reqpool).1 ≠ none → ¬ Refused answer
  | _ => True

instance (s : BlkdevIo) (a : IoArgs) : Decidable (Reaches s a) := inferInstanceAs (Decidable (_ ∧ _))

instance (s : BlkdevIo) (e : BlkdevEvent) : Decidable (Accepted s e) :=
  match e with
  | .asyncIo a _ answer | .syncIo a answer => inferInstanceAs (Decidable (Reaches s a → ¬ Refused answer))
  | .slot _ answer => inferInstanceAs (Decidable (¬ Refused answer))
  | .again _ answer => inferInstanceAs (Decidable ((mempoolPick s.reqpool).1 ≠ none → ¬ Refused answer))
  | .complete _ _ | .callbackEnd _ | .finish _ => inferInstanceAs (Decidable True)

/-- The object that a call has and the driver has not. -/
def BlkdevCall.held : BlkdevCall → Option Nat
  | .enqueue o => some o
  | _ => none

/-- The objects in use: those of the driver, of running callbacks, and of calls that wait for a slot. -/
def BlkdevIo.users (s : BlkdevIo) : List Nat := s.inflight ++ s.callbacks ++ s.calls.filterMap BlkdevCall.held

/-- The `n` objects of a device are free, in use, or are `k` others that nobody has. -/
def Accounts (n k : Nat) (s : BlkdevIo) : Prop :=
  ∃ lost q, lost.length = k ∧ Conserved n ⟨s.reqpool, s.users ++ lost⟩ q

section Accounts

variable {n k : Nat} {s t : BlkdevIo} {a : IoArgs} {cb : ReqCb} {o : Nat} {answer : Int} {e : BlkdevEvent}

/-- The free objects and those in use, if `k` are lost. -/
theorem Accounts.total (h : Accounts n k s) :
    (mempoolFreeCount s.reqpool).toNat + s.users.length + k = n := by
  rcases h with ⟨lost, q, hk, hc⟩
  have hlen := hc.length
  rw [List.length_append] at hlen
  have hfree : (mempoolFreeCount s.reqpool).toNat = q.length := ringCount_eq hc.holds
  omega

theorem Accounts.unique {k' : Nat} (h : Accounts n k s) (h' : Accounts n k' s) : k = k' := by
  have ht := h.total
  have ht' := h'.total
  omega

/-- The order of the objects in use does not matter. -/
theorem conserved_perm {p p' : Mempool} {users users' q : List Nat} (h : Conserved n ⟨p, users⟩ q)
    (hp : p' = p) (hu : users'.Perm users) : Conserved n ⟨p', users'⟩ q := by
  subst hp
  exact ⟨h.holds, (hu.append_left q).trans h.perm, h.room⟩

/-- Nothing else of a device matters. -/
theorem Accounts.congr (h : Accounts n k s) (hp : t.reqpool = s.reqpool) (hu : t.users.Perm s.users) :
    Accounts n k t := by
  rcases h with ⟨lost, q, hk, hc⟩
  exact ⟨lost, q, hk, conserved_perm hc hp (hu.append_right lost)⟩

/-- One object is with neither the pool nor a user. -/
def Accounts1 (n k : Nat) (s : BlkdevIo) (o : Nat) : Prop :=
  ∃ lost q, lost.length = k ∧ Conserved n ⟨s.reqpool, o :: (s.users ++ lost)⟩ q

/-- The object is lost … -/
theorem Accounts1.lose (h : Accounts1 n k s o) : Accounts n (k + 1) s := by
  rcases h with ⟨lost, q, hk, hc⟩
  refine ⟨o :: lost, q, by rw [List.length_cons, hk], hc.holds, ?_, hc.room⟩
  exact (List.perm_middle.append_left q).trans hc.perm

/-- … is taken into use … -/
theorem Accounts1.use (h : Accounts1 n k s o) (hp : t.reqpool = s.reqpool)
    (hu : t.users.Perm (o :: s.users)) : Accounts n k t := by
  rcases h with ⟨lost, q, hk, hc⟩
  exact ⟨lost, q, hk, conserved_perm hc hp (hu.append_right lost)⟩

/-- … or is put back. -/
theorem Accounts1.put (h : Accounts1 n k s o) (hp : t.reqpool = mempoolPut s.reqpool o)
    (hu : t.users = s.users) : Accounts n k t := by
  rcases h with ⟨lost, q, hk, hc⟩
  have hput := (hc.put List.mem_cons_self).2
  rw [List.erase_cons_head] at hput
  exact ⟨lost, q ++ [o], hk, conserved_perm hput hp (by rw [hu])⟩

/-- An object in use leaves its user. -/
theorem Accounts.leave (h : Accounts n k s) (hp : t.reqpool = s.reqpool)
    (hu : s.users.Perm (o :: t.users)) : Accounts1 n k t o := by
  rcases h with ⟨lost, q, hk, hc⟩
  exact ⟨lost, q, hk, conserved_perm hc hp (hu.symm.append_right lost)⟩

/-- A pick hands out a free object, or changes nothing. -/
theorem Accounts.pickReq (h : Accounts n k s) (a : IoArgs) (cb : ReqCb) :
    ((mempoolPick s.reqpool).1 = none ∧ ∃ t, pickReq s a cb = (none, t) ∧ t.users = s.users ∧
        t.reqpool = s.reqpool ∧ Accounts n k t) ∨
      ((mempoolPick s.reqpool).1 ≠ none ∧ ∃ o t, pickReq s a cb = (some o, t) ∧ Accounts1 n k t o) := by
  rcases h with ⟨lost, q, hk, hc⟩
  rcases hc.pick with ⟨-, -, q', hc'⟩
  have hc' : Conserved n ⟨(mempoolPick s.reqpool).2,
    (s.users ++ lost) ++ (mempoolPick s.reqpool).1.toList⟩ q' := hc'
  unfold Minios.pickReq
  rcases hpick : mempoolPick s.reqpool with ⟨o, p⟩
  rw [hpick] at hc'
  cases o with
  | none =>
      -- dequeuing from an empty ring changes nothing
      have hsame : p = s.reqpool := by
        have hspec := ringDequeue_spec hc.holds
        unfold mempoolPick at hpick
        cases q with
        | nil =>
            rw [hspec] at hpick
            exact (Prod.mk.inj hpick).2.symm
        | cons x q =>
            rcases hspec with ⟨r', he, -⟩
            rw [he] at hpick
            cases (Prod.mk.inj hpick).1
      refine .inl ⟨rfl, { s with reqpool := p }, rfl, rfl, hsame, lost, q, hk, ?_⟩
      rw [hsame]
      exact hc
  | some o =>
      -- the picked object is in front of those that are in use
      refine .inr ⟨fun hno => (by cases hno), o, _, rfl, lost, q', hk, hc'.holds, ?_, hc'.room⟩
      refine List.Perm.trans ?_ hc'.perm
      exact (List.perm_append_singleton o (s.users ++ lost)).symm.append_left q'

/-- The driver's answer decides who has the object. -/
theorem Accounts1.enqueue (h : Accounts1 n k s o) (answer : Int) :
    Accounts n (if Refused answer then k + 1 else k) (enqueueReq s o answer) := by
  unfold enqueueReq
  by_cases hbusy : answer = -ebusy
  · rw [if_pos hbusy, if_neg fun hr : Refused answer => hr.1 hbusy]
    apply h.use
    · rfl
    · exact List.perm_middle
  · rw [if_neg hbusy]
    by_cases hneg : answer < 0
    · have hr : Refused answer := ⟨hbusy, hneg⟩
      rw [if_pos hneg, if_pos hr]
      have hlost : Accounts n (k + 1) { s with ret := some answer } :=
        h.lose.congr rfl (List.Perm.refl _)
      cases (s.req o).cb with
      | sync =>
          -- a call that tries again has no object of its own
          by_cases hagain : answer = -eagain
          · simp only [if_pos hagain]
            exact h.lose.congr rfl (List.Perm.refl _)
          · simp only [if_neg hagain]
            exact hlost
      | user argp => exact hlost
    · rw [if_neg hneg, if_neg fun hr : Refused answer => hneg hr.2]
      cases (s.req o).cb with
      | sync =>
          apply h.use
          · rfl
          · exact List.Perm.refl _
      | user argp =>
          apply h.use
          · rfl
          · exact List.Perm.refl _

/-- The same with the loss of a step: `P` says that the request is not refused. -/
theorem Accounts1.submit (h : Accounts1 n k s o) {P : Prop} [Decidable P] (hP : P ↔ ¬ Refused answer) :
    Accounts n (k + if P then 0 else 1) (enqueueReq s o answer) := by
  have henq := h.enqueue answer
  by_cases hr : Refused answer
  · rw [if_pos hr] at henq
    rw [if_neg fun hp => hP.1 hp hr]
    exact henq
  · rw [if_neg hr] at henq
    rw [if_pos (hP.2 hr)]
    exact henq

/-- A call without an object goes. -/
theorem Accounts.drop (h : Accounts n k s) {call : BlkdevCall} (hc : call ∈ s.calls) (hheld : call.held = none) :
    Accounts n k { s with calls := s.calls.erase call } := by
  apply h.congr
  · rfl
  · have hperm := (List.perm_cons_erase hc).filterMap BlkdevCall.held
    rw [List.filterMap_cons_none hheld] at hperm
    exact hperm.symm.append_left (s.inflight ++ s.callbacks)

/-- What a step loses. -/
def loss (s : BlkdevIo) (e : BlkdevEvent) : Nat := if Accepted s e then 0 else 1

theorem Accounts.nocheck (h : Accounts n k s) (a : IoArgs) (answer : Int) :
    Accounts n (k + if (mempoolPick s.reqpool).1 ≠ none → ¬ Refused answer then 0 else 1)
      (blkdevSyncIoNocheck s a answer) := by
  unfold blkdevSyncIoNocheck
  rcases h.pickReq a .sync with ⟨hno, t, hpick, hu, hp, ht⟩ | ⟨hsome, o, t, hpick, ht⟩
  · rw [hpick, if_pos fun hh => absurd hno hh]
    exact ht.congr rfl (List.Perm.refl _)
  · rw [hpick]
    exact ht.submit ⟨fun hh => hh hsome, fun hr _ => hr⟩

/-- A completion puts the object back, or leaves it to the callback. -/
theorem Accounts.complete (h : Accounts n k s) (he : o ∈ s.inflight) (ret : Int) :
    Accounts n k (blkdevAsyncIoCb { s with inflight := s.inflight.erase o } o ret) := by
  have hleave : Accounts1 n k { s with inflight := s.inflight.erase o } o := by
    apply h.leave
    · rfl
    · have hperm := (List.perm_cons_erase he).append_right s.callbacks
      exact hperm.append_right (s.calls.filterMap BlkdevCall.held)
  unfold blkdevAsyncIoCb
  cases hcb : (s.req o).cb with
  | sync =>
      apply hleave.put
      · rfl
      · -- a waiting call has no object of its own
        have hheld : ∀ c : BlkdevCall,
            (if c = .wait o then BlkdevCall.done ret else c).held = c.held := by
          intro c
          split
          · rename_i hc
            rw [hc]
            rfl
          · rfl
        show _ ++ _ ++ ((s.calls.map _).filterMap BlkdevCall.held) = _
        rw [List.filterMap_map]
        congr 1
        exact List.filterMap_congr fun c _ => hheld c
  | user argp =>
      cases argp with
      | none => exact hleave.put rfl rfl
      | some x =>
          apply hleave.use
          · rfl
          · show (s.inflight.erase o ++ (o :: s.callbacks) ++ _).Perm _
            exact List.perm_middle.append_right _

/-- A step loses an object exactly if its request is refused. -/
theorem Accounts.step (h : Accounts n k s) (hs : blkdevIo.Step s e t) : Accounts n (k + loss s e) t := by
  rcases hs with ⟨he, hn⟩
  have hfail : ∀ {a : IoArgs} {x answer}, blkdevIoCheck s.info a = some x →
      (Reaches s a → ¬ Refused answer) := by
    intro a x answer hcheck hr
    rw [hr.1] at hcheck
    cases hcheck
  unfold loss
  cases e with
  | asyncIo a cb answer =>
      obtain rfl := Except.ok.inj hn
      unfold blkdevAsyncIo
      cases hcheck : blkdevIoCheck s.info a with
      | some x =>
          have hacc : Accepted s (.asyncIo a cb answer) := hfail hcheck
          rw [if_pos hacc]
          exact h.congr rfl (List.Perm.refl _)
      | none =>
          rcases h.pickReq a (.user cb) with ⟨hno, u, hpick, hu, hp, hacc⟩ | ⟨hsome, o, u, hpick, hacc⟩
          · have hacc' : Accepted s (.asyncIo a cb answer) := fun hr => absurd hno hr.2
            simp only [hpick]
            rw [if_pos hacc']
            exact hacc.congr rfl (List.Perm.refl _)
          · simp only [hpick]
            have hiff : Accepted s (.asyncIo a cb answer) ↔ ¬ Refused answer :=
              ⟨fun hh => hh ⟨hcheck, hsome⟩, fun hr _ => hr⟩
            exact hacc.submit hiff
  | syncIo a answer =>
      obtain rfl := Except.ok.inj hn
      unfold blkdevSyncIo
      cases hcheck : blkdevIoCheck s.info a with
      | some x =>
          have hacc : Accepted s (.syncIo a answer) := hfail hcheck
          rw [if_pos hacc]
          exact h.congr rfl (List.Perm.refl _)
      | none =>
          have hacc := h.nocheck a answer
          have hiff : Accepted s (.syncIo a answer) ↔
              ((mempoolPick s.reqpool).1 ≠ none → ¬ Refused answer) :=
            ⟨fun hh hne => hh ⟨hcheck, hne⟩, fun hh hr => hh hr.2⟩
          rw [if_congr hiff rfl rfl]
          exact hacc
  | slot o answer =>
      obtain rfl := Except.ok.inj hn
      have hleave : Accounts1 n k { s with calls := s.calls.erase (.enqueue o) } o := by
        apply h.leave
        · rfl
        · have hperm := (List.perm_cons_erase (he : BlkdevCall.enqueue o ∈ s.calls)).filterMap
            BlkdevCall.held
          exact (hperm.append_left (s.inflight ++ s.callbacks)).trans List.perm_middle
      exact hleave.submit (P := Accepted s (.slot o answer)) Iff.rfl
  | again a answer =>
      obtain rfl := Except.ok.inj hn
      exact (h.drop he rfl).nocheck a answer
  | complete o ret =>
      obtain rfl := Except.ok.inj hn
      have hacc : Accepted s (.complete o ret) := trivial
      rw [if_pos hacc]
      exact h.complete he ret
  | callbackEnd o =>
      obtain rfl := Except.ok.inj hn
      have hacc : Accepted s (.callbackEnd o) := trivial
      rw [if_pos hacc]
      have hleave : Accounts1 n k { s with callbacks := s.callbacks.erase o } o := by
        apply h.leave
        · rfl
        · have hperm := (List.perm_cons_erase (he : o ∈ s.callbacks)).append_left s.inflight
          exact (hperm.trans List.perm_middle).append_right (s.calls.filterMap BlkdevCall.held)
      exact hleave.put rfl rfl
  | finish ret =>
      obtain rfl := Except.ok.inj hn
      have hacc : Accepted s (.finish ret) := trivial
      rw [if_pos hacc]
      exact (h.drop he rfl).congr rfl (List.Perm.refl _)

/-- A call that returns an error at once, and whose request is not refused, leaves the pool as it was. -/
theorem failed_call_pool {cb : Option Nat} {e : BlkdevEvent} (h : Accounts n k s)
    (he : e = .asyncIo a cb answer ∨ e = .syncIo a answer) (hs : (blkdevIo.restrict Accepted).Step s e t)
    {r : Int} (hr : t.ret = some r) (hneg : r < 0) : t.reqpool = s.reqpool := by
  rcases Machine.restrict_step.1 hs with ⟨⟨-, hn⟩, hacc⟩
  -- an object that was picked goes to the driver or to a waiting call
  have henq : ∀ {u : BlkdevIo} {o : Nat}, ¬ Refused answer →
      (enqueueReq u o answer).ret = some r → False := by
    intro u o href hret
    unfold enqueueReq at hret
    by_cases hbusy : answer = -ebusy
    · rw [if_pos hbusy] at hret
      cases hret
    · have hpos : ¬ answer < 0 := fun hlt => href ⟨hbusy, hlt⟩
      rw [if_neg hbusy, if_neg hpos] at hret
      cases hcb : (u.req o).cb with
      | sync =>
          rw [hcb] at hret
          cases hret
      | user argp =>
          rw [hcb] at hret
          exact hpos ((Option.some.inj hret) ▸ hneg)
  rcases he with rfl | rfl
  · obtain rfl := Except.ok.inj hn
    unfold blkdevAsyncIo at hr ⊢
    cases hcheck : blkdevIoCheck s.info a with
    | some x => rfl
    | none =>
        rw [hcheck] at hr
        rcases h.pickReq a (.user cb) with ⟨hno, u, hpick, -, hp, -⟩ | ⟨hsome, o, u, hpick, -⟩
        · simp only [hpick]
          exact hp
        · simp only [hpick] at hr
          exact (henq (hacc ⟨hcheck, hsome⟩) hr).elim
  · obtain rfl := Except.ok.inj hn
    unfold blkdevSyncIo blkdevSyncIoNocheck at hr ⊢
    cases hcheck : blkdevIoCheck s.info a with
    | some x => rfl
    | none =>
        rw [hcheck] at hr
        rcases h.pickReq a .sync with ⟨hno, u, hpick, -, hp, -⟩ | ⟨hsome, o, u, hpick, -⟩
        · simp only [hpick]
          exact hp
        · simp only [hpick] at hr
          exact (henq (hacc ⟨hcheck, hsome⟩) hr).elim

end Accounts

/-! ## Runs -/

/-- The number of objects of a pool is written once. -/
theorem blkdev_nbObjs {s t : BlkdevIo} {e : BlkdevEvent} (hs : blkdevIo.Step s e t) :
    t.reqpool.nbObjs = s.reqpool.nbObjs := by
  have hpick : ∀ (u : BlkdevIo) a cb, (pickReq u a cb).2.reqpool.nbObjs = u.reqpool.nbObjs := by
    intro u a cb
    unfold pickReq mempoolPick
    rcases ringDequeue u.reqpool.freeObjs with ⟨_ | o, r⟩ <;> rfl
  have henq : ∀ (u : BlkdevIo) o answer, (enqueueReq u o answer).reqpool = u.reqpool := by
    intro u o answer
    unfold enqueueReq
    split
    · rfl
    · split
      · split
        · split <;> rfl
        · rfl
      · split <;> rfl
  have hnocheck : ∀ (u : BlkdevIo) a answer,
      (blkdevSyncIoNocheck u a answer).reqpool.nbObjs = u.reqpool.nbObjs := by
    intro u a answer
    have hu := hpick u a .sync
    unfold blkdevSyncIoNocheck
    rcases hv : pickReq u a .sync with ⟨_ | o, v⟩
    · rw [hv] at hu
      exact hu
    · rw [hv] at hu
      exact (congrArg Mempool.nbObjs (henq v o answer)).trans hu
  rcases hs with ⟨-, hn⟩
  have hn : blkdevNext s e = .ok t := hn
  cases e with
  | asyncIo a cb answer =>
      obtain rfl := Except.ok.inj hn
      have hu := hpick s a (.user cb)
      show (blkdevAsyncIo s a cb answer).reqpool.nbObjs = _
      unfold blkdevAsyncIo
      cases blkdevIoCheck s.info a with
      | some x => rfl
      | none =>
          simp only
          rcases hv : pickReq s a (.user cb) with ⟨_ | o, v⟩
          · rw [hv] at hu
            exact hu
          · rw [hv] at hu
            exact (congrArg Mempool.nbObjs (henq v o answer)).trans hu
  | syncIo a answer =>
      obtain rfl := Except.ok.inj hn
      show (blkdevSyncIo s a answer).reqpool.nbObjs = _
      unfold blkdevSyncIo
      cases blkdevIoCheck s.info a with
      | some x => rfl
      | none => exact hnocheck s a answer
  | slot o answer =>
      obtain rfl := Except.ok.inj hn
      exact congrArg Mempool.nbObjs (henq _ o answer)
  | again a answer =>
      obtain rfl := Except.ok.inj hn
      exact hnocheck _ a answer
  | complete o ret =>
      obtain rfl := Except.ok.inj hn
      show (blkdevAsyncIoCb { s with inflight := s.inflight.erase o } o ret).reqpool.nbObjs = _
      unfold blkdevAsyncIoCb
      split <;> rfl
  | callbackEnd o =>
      obtain rfl := Except.ok.inj hn
      rfl
  | finish ret =>
      obtain rfl := Except.ok.inj hn
      rfl

section Runs

variable {maxRequests : UInt32} {reqSize : UInt64} {m : MempoolMem} {p : Mempool}

/-- A new device has all its objects in the pool. -/
theorem accounts_init (h1 : 1 ≤ maxRequests.toNat) (h2 : maxRequests.toNat < 2 ^ 30)
    (hp : allocSimpleMempool maxRequests reqSize m = .ok (some p)) (info : BlkfrontInfo)
    (req : Nat → BlkdevReq) :
    Accounts maxRequests.toNat 0 (newBlkdevIo info p req) ∧ p.nbObjs = maxRequests := by
  rcases alloc_spec h1 h2 hp with ⟨ring, -, -, hnb, hholds, hroom, -⟩
  refine ⟨⟨[], List.range maxRequests.toNat, rfl, hholds, ?_, hroom⟩, hnb⟩
  show (List.range maxRequests.toNat ++ []).Perm _
  rw [List.append_nil]

/-- The request objects are conserved exactly in the runs in which the driver never answers with an error
other than `-EBUSY`: then, and only then, the free objects and the requests with the driver are all of them
whenever no call is executing, and closing an idle device does not trip over the pool. A call that returns an
error at once leaves the pool as it was in every step of such a run. -/
theorem requests_conserved_iff {es : List BlkdevEvent} {s : BlkdevIo} (info : BlkfrontInfo)
    (req : Nat → BlkdevReq) (h1 : 1 ≤ maxRequests.toNat) (h2 : maxRequests.toNat < 2 ^ 30)
    (hp : allocSimpleMempool maxRequests reqSize m = .ok (some p))
    (hrun : blkdevIo.Run (newBlkdevIo info p req) es s) :
    (s.Quiet → ((mempoolFreeCount s.reqpool).toNat + s.inflight.length = maxRequests.toNat ↔
      (blkdevIo.restrict Accepted).Run (newBlkdevIo info p req) es s)) ∧
    (s.Quiet → s.inflight = [] → (freeMempool s.reqpool = .ok () ↔
      (blkdevIo.restrict Accepted).Run (newBlkdevIo info p req) es s)) ∧
    ∀ a cb answer e t r, (e = .asyncIo a cb answer ∨ e = .syncIo a answer) →
      (blkdevIo.restrict Accepted).Step s e t → t.ret = some r → r < 0 → t.reqpool = s.reqpool := by
  rcases accounts_init h1 h2 hp info req with ⟨hinit, hnb⟩
  have hnb' : s.reqpool.nbObjs = maxRequests :=
    hrun.invariant (I := fun u => u.reqpool.nbObjs = maxRequests)
      (fun _ _ _ hu hs => (blkdev_nbObjs hs).trans hu) hnb
  have hinv : ∀ u e v, (∃ k, Accounts maxRequests.toNat k u) → blkdevIo.Step u e v →
      ∃ k, Accounts maxRequests.toNat k v := fun u e v ⟨k, hk⟩ hs => ⟨_, hk.step hs⟩
  rcases hrun.invariant (I := fun u => ∃ k, Accounts maxRequests.toNat k u) hinv ⟨0, hinit⟩ with ⟨k, hk⟩
  have hiff : Accounts maxRequests.toNat 0 s ↔
      (blkdevIo.restrict Accepted).Run (newBlkdevIo info p req) es s := by
    apply Machine.Run.iff_restrict (I := fun u => ∃ k, Accounts maxRequests.toNat k u)
    · exact hinv
    · rintro u e v ⟨j, hj⟩ hs hv
      -- what is lost stays lost
      have heq := (hj.step hs).unique hv
      obtain rfl : j = 0 := by omega
      exact hj
    · rintro u e v - hu hs
      have hv := hu.step hs
      unfold loss at hv
      constructor
      · intro hv0
        by_contra hno
        rw [if_neg hno] at hv
        exact absurd (hv.unique hv0) (by decide)
      · intro hacc
        rw [if_pos hacc] at hv
        exact hv
    · exact hrun
    · exact ⟨0, hinit⟩
    · exact hinit
  have hzero : Accounts maxRequests.toNat 0 s ↔ k = 0 :=
    ⟨fun h0 => hk.unique h0, fun h0 => h0 ▸ hk⟩
  have htotal := hk.total
  have hquiet : s.Quiet → s.users = s.inflight := by
    rintro ⟨hcalls, hcbs⟩
    unfold BlkdevIo.users
    rw [hcalls, hcbs, List.append_nil]
    exact List.append_nil _
  refine ⟨fun hq => ?_, fun hq hidle => ?_, fun a cb answer e t r he hs hr hneg => ?_⟩
  · rw [← hiff, hzero]
    rw [hquiet hq] at htotal
    omega
  · rw [← hiff, hzero]
    rw [hquiet hq, hidle, List.length_nil] at htotal
    unfold freeMempool
    rw [hnb']
    show (if mempoolFreeCount s.reqpool ≠ maxRequests then _ else _) = _ ↔ _
    by_cases hc : mempoolFreeCount s.reqpool = maxRequests
    · rw [if_neg (not_not.2 hc)]
      rw [hc] at htotal
      exact ⟨fun _ => by omega, fun _ => rfl⟩
    · rw [if_pos hc]
      refine ⟨fun hh => (by cases hh), fun h0 => ?_⟩
      exact absurd (UInt32.toNat_inj.1 (by omega)) hc
  · exact failed_call_pool hk he hs hr hneg

/-! ### A device with three objects -/

/-- The heap has room for the pool. -/
def reqpoolMem : MempoolMem := ⟨some 4096, none, some fun _ => 0, fun _ => ⟨0, 0, 0, 0, 0⟩⟩

/-- Request objects with nothing in them. -/
def blankReq : Nat → BlkdevReq := fun _ => ⟨⟨0, 0, 0⟩, 0, 0, false, .sync⟩

/-- A page of the device. -/
def onePage : IoArgs := ⟨0, 8, false, 4096⟩

/-- A synchronous and an asynchronous read, one of which waits for a slot. -/
theorem requests_conserved_iff_two : ∃ p es s, allocSimpleMempool 3 112 reqpoolMem = .ok (some p) ∧
    s.inflight = [1] ∧
    (s.Quiet → ((mempoolFreeCount s.reqpool).toNat + s.inflight.length = 3 ↔
      (blkdevIo.restrict Accepted).Run (newBlkdevIo smallSectors p blankReq) es s)) ∧
    (s.Quiet → s.inflight = [] → (freeMempool s.reqpool = .ok () ↔
      (blkdevIo.restrict Accepted).Run (newBlkdevIo smallSectors p blankReq) es s)) ∧
    ∀ a cb answer e t r, (e = .asyncIo a cb answer ∨ e = .syncIo a answer) →
      (blkdevIo.restrict Accepted).Step s e t → t.ret = some r → r < 0 → t.reqpool = s.reqpool := by
  have hp : ∃ p, allocSimpleMempool 3 112 reqpoolMem = .ok (some p) ∧
      ((blkdevIo.exec (newBlkdevIo smallSectors p blankReq)
        [.syncIo onePage 0, .asyncIo onePage none (-ebusy), .complete 0 0, .slot 1 0, .finish 0]).any
        fun s => s.inflight = [1]) = true := ⟨_, rfl, by decide +kernel⟩
  rcases hp with ⟨p, hp, hexec⟩
  rcases Machine.Run.of_exec_any hexec with ⟨s, hrun, hs⟩
  exact ⟨p, _, s, hp, of_decide_eq_true hs,
    requests_conserved_iff smallSectors blankReq (by decide) (by decide) hp hrun⟩

/-- The driver answers -5 to a request, whose object is lost: the device is idle with all but one of its 31
objects in the pool, and closing it trips over that. -/
theorem refused_request_leaks : ∃ p es s, allocSimpleMempool 31 112 reqpoolMem = .ok (some p) ∧
    blkdevIo.Run (newBlkdevIo smallSectors p blankReq) es s ∧ s.Quiet ∧ s.inflight = [] ∧
    (mempoolFreeCount s.reqpool).toNat + s.inflight.length ≠ 31 ∧ freeMempool s.reqpool = .error .bugOn := by
  have hp : ∃ p, allocSimpleMempool 31 112 reqpoolMem = .ok (some p) ∧
      ((blkdevIo.exec (newBlkdevIo smallSectors p blankReq) [.asyncIo onePage none (-5)]).any fun s =>
        s.calls = [] ∧ s.callbacks = [] ∧ s.inflight = [] ∧ (mempoolFreeCount s.reqpool).toNat = 30 ∧
          ringCount s.reqpool.freeObjs ≠ s.reqpool.nbObjs) = true := ⟨_, rfl, by decide +kernel⟩
  rcases hp with ⟨p, hp, hexec⟩
  rcases Machine.Run.of_exec_any hexec with ⟨s, hrun, hs⟩
  rcases of_decide_eq_true hs with ⟨hcalls, hcbs, hidle, hfree, hne⟩
  refine ⟨p, _, s, hp, hrun, ⟨hcalls, hcbs⟩, hidle, ?_, if_pos hne⟩
  rw [hfree, hidle]
  decide

end Runs

end Minipython.Minios
