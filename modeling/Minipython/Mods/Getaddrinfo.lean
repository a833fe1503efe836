/-
# Minipython.Mods.Getaddrinfo — waiting for the resolver (modlwip.c)

`lwip_getaddrinfo` gives lwIP the address of a structure on its own stack, which the callback writes to, and
polls until something is written. A callback of the program that runs in a poll may ask for another host, so
calls nest, and the answers to all of them come in any order, to places that are used again by later calls.

`getaddrinfo_answers` says that every answer goes to the call that asked for it, and what each call tells:
it asks, it is answered if it has to wait, and it returns that answer.

The frames of the calls are a stack, as on the machine: a call that is made in a poll ends before the poll
does. lwIP holds a request until it answers it, or answers at once when the name is known. A frame is taken
off the stack only once it is answered, and a request is dropped with its answer; so the requests are those
of the frames that wait, each with the place of its own frame (`Resolver.Ok`). The places of calls that have
returned are used again, and what is in them by then is arbitrary.

lwIP answers each request once, as its documentation says, and answers none that it was not asked.
-/
import Mathlib.Data.List.Nodup
import Minipython.Lib.Machine

namespace Minipython.Mods

open Minipython.Lib

/-! ## Calls -/

/-- `getaddrinfo_state_t`. -/
structure GetaddrinfoState where
  status : Int
  ipaddr : UInt32
  deriving DecidableEq, Repr

/-- What `dns_gethostbyname` returns. -/
inductive DnsReturn where
  /-- `ERR_OK`: the address was known -/
  | ok (ip : UInt32)
  /-- `ERR_INPROGRESS`: the callback will be called -/
  | inprogress
  | error (e : Int)
  deriving DecidableEq, Repr

/-- What `lwip_getaddrinfo` returns or raises. -/
inductive GaiOutcome where
  | address (ip : UInt32) (port : Int)
  | osError (e : Int)
  deriving DecidableEq, Repr

/-- What can be seen of a call, by its number. -/
inductive GaiEffect where
  | asked (call : Nat) (host : List UInt8) (port : Int) (ret : DnsReturn)
  | answered (call : Nat) (ip : Option UInt32)
  | returned (call : Nat) (o : GaiOutcome)
  deriving DecidableEq, Repr

/-- The number of the call. -/
def GaiEffect.call : GaiEffect → Nat
  | .asked c _ _ _ | .answered c _ | .returned c _ => c

/-- A call that polls; its place on the stack is the address of its state. -/
structure GaiFrame where
  call : Nat
  port : Int
  state : GetaddrinfoState
  deriving DecidableEq, Repr

/-- A request that lwIP works on, with the argument for its callback. -/
structure DnsRequest where
  call : Nat
  arg : Nat
  deriving DecidableEq, Repr

/-- The calls on the stack, the outermost first. -/
structure Resolver where
  frames : List GaiFrame
  requests : List DnsRequest
  calls : Nat
  log : List GaiEffect
  deriving DecidableEq, Repr

inductive GaiEvent where
  /-- the program calls `getaddrinfo`; `junk` is what the stack held -/
  | call (host : List UInt8) (port : Int) (ret : DnsReturn) (junk : UInt32)
  /-- lwIP has an answer, or gives up -/
  | answer (r : DnsRequest) (ip : Option UInt32)
  /-- `poll_sockets` returns in the innermost call -/
  | poll
  deriving DecidableEq, Repr

/-- The callback writes where no call is. -/
inductive GaiFault where
  | dangling
  deriving DecidableEq, Repr

/-- `lwip_getaddrinfo_cb`. -/
def lwipGetaddrinfoCb (ip : Option UInt32) (state : GetaddrinfoState) : GetaddrinfoState :=
  match ip with
  | some ip => { state with status := 1, ipaddr := ip }
  | none => { state with status := -2 }

/-- The end of `lwip_getaddrinfo`. -/
def getaddrinfoResult (state : GetaddrinfoState) (port : Int) : GaiOutcome :=
  if state.status < 0 then .osError state.status else .address state.ipaddr port

namespace Resolver

variable (s : Resolver)

/-- `lwip_getaddrinfo` up to its return or its first poll. -/
def lwipGetaddrinfo (host : List UInt8) (port : Int) (ret : DnsReturn) (junk : UInt32) : Resolver :=
  let ends (state : GetaddrinfoState) : Resolver :=
    { s with
      calls := s.calls + 1
      log := s.log ++ [.asked s.calls host port ret, .returned s.calls (getaddrinfoResult state port)] }
  match ret with
  | .ok ip => ends ⟨1, ip⟩
  | .inprogress =>
      { frames := s.frames ++ [⟨s.calls, port, ⟨0, junk⟩⟩]
        requests := ⟨s.calls, s.frames.length⟩ :: s.requests
        calls := s.calls + 1
        log := s.log ++ [.asked s.calls host port .inprogress] }
  | .error e => ends ⟨e, junk⟩

/-- lwIP calls back. -/
def answer (r : DnsRequest) (ip : Option UInt32) : Except GaiFault Resolver :=
  if r.arg < s.frames.length then
    .ok { s with
      frames := s.frames.modify r.arg fun f => { f with state := lwipGetaddrinfoCb ip f.state }
      requests := s.requests.erase r
      log := s.log ++ [.answered r.call ip] }
  else .error .dangling

/-- The loop of `lwip_getaddrinfo` behind a poll, and the rest of it. -/
def poll : Resolver :=
  match s.frames.getLast? with
  | none => s
  | some f =>
      if f.state.status = 0 then s
      else { s with
        frames := s.frames.dropLast
        log := s.log ++ [.returned f.call (getaddrinfoResult f.state f.port)] }

end Resolver

/-- lwIP answers a request once, and its errors are negative. -/
def resolver : Machine Resolver GaiEvent GaiFault where
  Enabled s
    | .call _ _ ret _ => ∀ e, ret = .error e → e < 0
    | .answer r _ => r ∈ s.requests
    | .poll => s.frames ≠ []
  next s
    | .call host port ret junk => .ok (s.lwipGetaddrinfo host port ret junk)
    | .answer r ip => s.answer r ip
    | .poll => .ok s.poll

instance (s : Resolver) : (e : GaiEvent) → Decidable (resolver.Enabled s e)
  | .call _ _ ret _ =>
      match ret with
      | .ok _ | .inprogress => .isTrue fun _ h => by cases h
      | .error e => decidable_of_iff (e < 0) ⟨fun h _ heq => DnsReturn.error.inj heq ▸ h, fun h => h e rfl⟩
  | .answer r _ => inferInstanceAs (Decidable (r ∈ s.requests))
  | .poll => inferInstanceAs (Decidable (s.frames ≠ []))

/-- Before the first call. -/
def Resolver.init : Resolver := ⟨[], [], 0, []⟩

/-! ## What a call tells -/

/-- What is seen of one call. -/
def Resolver.story (s : Resolver) (c : Nat) : List GaiEffect := s.log.filter fun x => x.call = c

/-- What `lwip_getaddrinfo` makes of an answer. -/
def gaiOutcome (ip : Option UInt32) (port : Int) : GaiOutcome :=
  match ip with
  | some ip => .address ip port
  | none => .osError (-2)

/-- A call on the stack has asked; its state is untouched, or holds the answer. -/
inductive Waits (f : GaiFrame) : List GaiEffect → Prop where
  | asked {host : List UInt8} (h : f.state.status = 0) : Waits f [.asked f.call host f.port .inprogress]
  | answered {host : List UInt8} {ip : Option UInt32} {old : GetaddrinfoState}
      (h : f.state = lwipGetaddrinfoCb ip old) :
      Waits f [.asked f.call host f.port .inprogress, .answered f.call ip]

/-- A call that is over has returned what it was told. -/
inductive Over (c : Nat) : List GaiEffect → Prop where
  | known {host : List UInt8} {port : Int} {ip : UInt32} :
      Over c [.asked c host port (.ok ip), .returned c (.address ip port)]
  | refused {host : List UInt8} {port e : Int} (h : e < 0) :
      Over c [.asked c host port (.error e), .returned c (.osError e)]
  | answered {host : List UInt8} {port : Int} {ip : Option UInt32} :
      Over c [.asked c host port .inprogress, .answered c ip, .returned c (gaiOutcome ip port)]

/-- The stack, the requests and the stories fit together. -/
structure Resolver.Ok (s : Resolver) : Prop where
  nodup : (s.frames.map GaiFrame.call).Nodup
  called : ∀ f ∈ s.frames, f.call < s.calls
  future : ∀ c, s.calls ≤ c → s.story c = []
  waits : ∀ f ∈ s.frames, Waits f (s.story f.call)
  done : ∀ c < s.calls, c ∉ s.frames.map GaiFrame.call → Over c (s.story c)
  once : s.requests.Nodup
  /-- a request is pending for every call whose state is untouched, and its argument is that state -/
  pending : ∀ r, r ∈ s.requests ↔ ∃ f, s.frames[r.arg]? = some f ∧ f.call = r.call ∧ f.state.status = 0

section Answers

variable {s t : Resolver} {e : GaiEvent} {es : List GaiEvent} {r : DnsRequest} {ip : Option UInt32}
  {f : GaiFrame}

theorem callback_status (ip : Option UInt32) (state : GetaddrinfoState) :
    (lwipGetaddrinfoCb ip state).status ≠ 0 := by
  cases ip <;> simp [lwipGetaddrinfoCb]

theorem result_callback (ip : Option UInt32) (state : GetaddrinfoState) (port : Int) :
    getaddrinfoResult (lwipGetaddrinfoCb ip state) port = gaiOutcome ip port := by
  cases ip <;> simp [lwipGetaddrinfoCb, getaddrinfoResult, gaiOutcome]

/-- What a story gets from new entries of the log. -/
theorem story_append {log : List GaiEffect} (c : Nat) (h : t.log = s.log ++ log) :
    t.story c = s.story c ++ log.filter fun x => x.call = c := by
  unfold Resolver.story
  rw [h, List.filter_append]

/-- A call whose state is untouched has only asked. -/
theorem Waits.untouched {l : List GaiEffect} (h : Waits f l) (h0 : f.state.status = 0) :
    ∃ host, l = [.asked f.call host f.port .inprogress] := by
  cases h with
  | asked _ => exact ⟨_, rfl⟩
  | answered heq =>
      rw [heq] at h0
      exact absurd h0 (callback_status _ _)

/-- A call whose state was written to has the answer there. -/
theorem Waits.written {l : List GaiEffect} (h : Waits f l) (h0 : f.state.status ≠ 0) :
    ∃ host ip, l = [.asked f.call host f.port .inprogress, .answered f.call ip] ∧
      getaddrinfoResult f.state f.port = gaiOutcome ip f.port := by
  cases h with
  | asked h => exact absurd h h0
  | @answered host ip old heq =>
      refine ⟨host, ip, rfl, ?_⟩
      rw [heq]
      exact result_callback ip old f.port

/-- A call that is over at once. -/
theorem Resolver.Ok.ends {host : List UInt8} {port : Int} {ret : DnsReturn} {o : GaiOutcome} (hs : s.Ok)
    (hover : Over s.calls [.asked s.calls host port ret, .returned s.calls o]) :
    Resolver.Ok { s with
      calls := s.calls + 1
      log := s.log ++ [.asked s.calls host port ret, .returned s.calls o] } := by
  have hstory := fun c => @story_append s { s with
    calls := s.calls + 1
    log := s.log ++ [.asked s.calls host port ret, .returned s.calls o] } _ c rfl
  have hother : ∀ c, c ≠ s.calls → Resolver.story { s with
      calls := s.calls + 1
      log := s.log ++ [.asked s.calls host port ret, .returned s.calls o] } c = s.story c := fun c hc => by
    rw [hstory]
    simp [GaiEffect.call, hc.symm]
  constructor
  case nodup => exact hs.nodup
  case called => exact fun f hf => Nat.lt_succ_of_lt (hs.called f hf)
  case future =>
      intro c hc
      rw [hother c (Nat.ne_of_gt hc)]
      exact hs.future c (Nat.le_of_succ_le hc)
  case waits =>
      intro f hf
      rw [hother _ (Nat.ne_of_lt (hs.called f hf))]
      exact hs.waits f hf
  case done =>
      intro c hc hnot
      by_cases heq : c = s.calls
      · rw [hstory, heq, hs.future _ (Nat.le_refl _)]
        simpa [GaiEffect.call] using hover
      · rw [hother c heq]
        exact hs.done c (Nat.lt_of_le_of_ne (Nat.le_of_lt_succ hc) heq) hnot
  case once => exact hs.once
  case pending => exact hs.pending

/-- A call that has to wait. -/
theorem Resolver.Ok.begins (hs : s.Ok) (host : List UInt8) (port : Int) (junk : UInt32) :
    (s.lwipGetaddrinfo host port .inprogress junk).Ok := by
  have hstory := fun c => @story_append s (s.lwipGetaddrinfo host port .inprogress junk) _ c rfl
  have hother : ∀ c, c ≠ s.calls →
      (s.lwipGetaddrinfo host port .inprogress junk).story c = s.story c := fun c hc => by
    rw [hstory]
    simp [GaiEffect.call, hc.symm]
  have hself : (s.lwipGetaddrinfo host port .inprogress junk).story s.calls =
      [.asked s.calls host port .inprogress] := by
    rw [hstory, hs.future _ (Nat.le_refl _)]
    simp [GaiEffect.call]
  have hnew : s.calls ∉ s.frames.map GaiFrame.call := fun hmem => by
    obtain ⟨f, hf, heq⟩ := List.mem_map.1 hmem
    exact Nat.lt_irrefl _ (heq ▸ hs.called f hf)
  constructor
  case nodup =>
      show ((s.frames ++ [_]).map GaiFrame.call).Nodup
      rw [List.map_append, List.map_singleton]
      exact List.nodup_append.2 ⟨hs.nodup, List.nodup_singleton _, fun a ha b hb => by
        rw [List.mem_singleton.1 hb]
        rintro rfl
        exact hnew ha⟩
  case called =>
      intro f hf
      rcases List.mem_append.1 hf with hf | hf
      · exact Nat.lt_succ_of_lt (hs.called f hf)
      · rw [List.mem_singleton.1 hf]
        exact Nat.lt_succ_self _
  case future =>
      intro c hc
      rw [hother c (Nat.ne_of_gt hc)]
      exact hs.future c (Nat.le_of_succ_le hc)
  case waits =>
      intro f hf
      rcases List.mem_append.1 hf with hf | hf
      · rw [hother _ (Nat.ne_of_lt (hs.called f hf))]
        exact hs.waits f hf
      · rw [List.mem_singleton.1 hf, hself]
        exact .asked rfl
  case done =>
      intro c hc hnot
      have hne : c ≠ s.calls := fun heq => hnot (by simp [Resolver.lwipGetaddrinfo, heq])
      rw [hother c hne]
      refine hs.done c (Nat.lt_of_le_of_ne (Nat.le_of_lt_succ hc) hne) fun hmem => hnot ?_
      show c ∈ (s.frames ++ [_]).map GaiFrame.call
      rw [List.map_append]
      exact List.mem_append_left _ hmem
  case once =>
      refine List.nodup_cons.2 ⟨fun hmem => ?_, hs.once⟩
      obtain ⟨f, hf, hcall, -⟩ := (hs.pending _).1 hmem
      exact hnew (List.mem_map.2 ⟨f, List.mem_of_getElem? hf, hcall⟩)
  case pending =>
      intro r
      show r ∈ (⟨s.calls, s.frames.length⟩ : DnsRequest) :: s.requests ↔
        ∃ f, (s.frames ++ [⟨s.calls, port, ⟨0, junk⟩⟩])[r.arg]? = some f ∧ f.call = r.call ∧ f.state.status = 0
      rw [List.mem_cons, hs.pending]
      constructor
      · rintro (rfl | ⟨f, hf, hcall, h0⟩)
        · exact ⟨_, List.getElem?_concat_length, rfl, rfl⟩
        · have hlt := (List.getElem?_eq_some_iff.1 hf).1
          exact ⟨f, by rw [List.getElem?_append_left hlt]; exact hf, hcall, h0⟩
      · rintro ⟨f, hf, hcall, h0⟩
        have hlt := (List.getElem?_eq_some_iff.1 hf).1
        rw [List.length_append, List.length_singleton] at hlt
        by_cases harg : r.arg = s.frames.length
        · left
          rw [harg, List.getElem?_concat_length] at hf
          obtain rfl := Option.some.inj hf
          cases r
          simp only at harg hcall
          rw [harg, hcall]
        · right
          rw [List.getElem?_append_left (by omega)] at hf
          exact ⟨f, hf, hcall, h0⟩

/-- The call of a frame does not change with its state. -/
theorem map_call_modify (k : Nat) (l : List GaiFrame) :
    (l.modify k fun f => { f with state := lwipGetaddrinfoCb ip f.state }).map GaiFrame.call =
      l.map GaiFrame.call := by
  apply List.ext_getElem?
  intro j
  rw [List.getElem?_map, List.getElem?_map, List.getElem?_modify]
  cases l[j]? with
  | none => rfl
  | some f =>
      show some (GaiFrame.call (if k = j then _ else f)) = some f.call
      split <;> rfl

/-- Two calls on the stack are the same if their numbers are. -/
theorem Resolver.Ok.frame_inj (hs : s.Ok) {i j : Nat} {f g : GaiFrame} (hi : s.frames[i]? = some f)
    (hj : s.frames[j]? = some g) (h : f.call = g.call) : i = j := by
  have hci : (s.frames.map GaiFrame.call)[i]? = some f.call := by
    rw [List.getElem?_map, hi]
    rfl
  have hcj : (s.frames.map GaiFrame.call)[j]? = some f.call := by
    rw [List.getElem?_map, hj, h]
    rfl
  obtain ⟨hlt, -⟩ := List.getElem?_eq_some_iff.1 hci
  exact (List.getElem?_inj hlt hs.nodup).1 (hci.trans hcj.symm)

/-- The callback writes to the call that has asked. -/
theorem Resolver.Ok.answers (hs : s.Ok) (hr : r ∈ s.requests) (ip : Option UInt32) :
    ∃ t, s.answer r ip = .ok t ∧ t.Ok := by
  obtain ⟨f, hf, hcall, h0⟩ := (hs.pending r).1 hr
  obtain ⟨hlt, -⟩ := List.getElem?_eq_some_iff.1 hf
  refine ⟨_, if_pos hlt, ?_⟩
  set t : Resolver := { s with
    frames := s.frames.modify r.arg fun f => { f with state := lwipGetaddrinfoCb ip f.state }
    requests := s.requests.erase r
    log := s.log ++ [.answered r.call ip] } with ht
  have hmap : t.frames.map GaiFrame.call = s.frames.map GaiFrame.call := map_call_modify r.arg s.frames
  have hget : ∀ j, t.frames[j]? = (s.frames[j]?).map fun g =>
      if r.arg = j then { g with state := lwipGetaddrinfoCb ip g.state } else g := fun j => by
    show (List.modify _ _ _)[j]? = _
    rw [List.getElem?_modify]
    rfl
  have hstory := fun c => @story_append s t _ c rfl
  have hother : ∀ c, c ≠ r.call → t.story c = s.story c := fun c hc => by
    rw [hstory]
    simp [GaiEffect.call, hc.symm]
  have hrcall : r.call < s.calls := hcall ▸ hs.called f (List.mem_of_getElem? hf)
  constructor
  case nodup =>
      rw [hmap]
      exact hs.nodup
  case called =>
      intro g hg
      obtain ⟨g', hg', heq⟩ := List.mem_map.1 (hmap ▸ List.mem_map_of_mem (f := GaiFrame.call) hg)
      rw [← heq]
      exact hs.called g' hg'
  case future =>
      intro c hc
      have hc : s.calls ≤ c := hc
      rw [hother c (by omega)]
      exact hs.future c hc
  case waits =>
      intro g hg
      obtain ⟨j, hj⟩ := List.getElem?_of_mem hg
      rw [hget] at hj
      obtain ⟨g', hg', rfl⟩ := Option.map_eq_some_iff.1 hj
      by_cases harg : r.arg = j
      · subst harg
        obtain rfl := Option.some.inj (hf.symm.trans hg')
        rw [if_pos rfl]
        show Waits _ (t.story f.call)
        obtain ⟨host, hasked⟩ := (hs.waits f (List.mem_of_getElem? hf)).untouched h0
        rw [hstory, hasked, hcall]
        simpa [GaiEffect.call, hcall] using
          @Waits.answered { f with state := lwipGetaddrinfoCb ip f.state } host ip f.state rfl
      · rw [if_neg harg]
        have hne : g'.call ≠ r.call := fun heq => harg (hs.frame_inj hf hg' (hcall.trans heq.symm))
        rw [hother _ hne]
        exact hs.waits g' (List.mem_of_getElem? hg')
  case done =>
      intro c hc hnot
      rw [hmap] at hnot
      have hne : c ≠ r.call := fun heq => hnot (by
        rw [heq, ← hcall]
        exact List.mem_map_of_mem (List.mem_of_getElem? hf))
      rw [hother c hne]
      exact hs.done c hc hnot
  case once => exact hs.once.erase r
  case pending =>
      intro r'
      show r' ∈ s.requests.erase r ↔ _
      rw [hs.once.mem_erase_iff, hs.pending, hget]
      constructor
      · rintro ⟨hne, g, hg, hgcall, hg0⟩
        have harg : r.arg ≠ r'.arg := fun harg => by
          rw [← harg] at hg
          obtain rfl := Option.some.inj (hf.symm.trans hg)
          apply hne
          cases r
          cases r'
          simp only at harg hcall hgcall
          rw [harg, ← hcall, hgcall]
        exact ⟨g, by rw [hg, Option.map_some, if_neg harg], hgcall, hg0⟩
      · rintro ⟨g, hg, hgcall, hg0⟩
        obtain ⟨g', hg', rfl⟩ := Option.map_eq_some_iff.1 hg
        by_cases harg : r.arg = r'.arg
        · rw [if_pos harg] at hg0
          exact absurd hg0 (callback_status ip g'.state)
        · rw [if_neg harg] at hgcall hg0
          refine ⟨?_, g', hg', hgcall, hg0⟩
          rintro rfl
          exact harg rfl

/-- The innermost call polls on, or returns what it was told. -/
theorem Resolver.Ok.polls (hs : s.Ok) : s.poll.Ok := by
  unfold Resolver.poll
  cases hlast : s.frames.getLast? with
  | none => exact hs
  | some f =>
      by_cases h0 : f.state.status = 0
      · simpa only [h0, if_true] using hs
      simp only [h0, if_false]
      obtain ⟨l, hframes⟩ := List.getLast?_eq_some_iff.1 hlast
      set t : Resolver := { s with
        frames := s.frames.dropLast
        log := s.log ++ [.returned f.call (getaddrinfoResult f.state f.port)] } with ht
      have hmem : f ∈ s.frames := by simp [hframes]
      have hinit : t.frames = l := by
        show s.frames.dropLast = l
        rw [hframes, List.dropLast_concat]
      have hnodup := hs.nodup
      rw [hframes, List.map_append, List.map_singleton, List.nodup_append] at hnodup
      obtain ⟨hl, -, hapart⟩ := hnodup
      have hstory := fun c => @story_append s t _ c rfl
      have hother : ∀ c, c ≠ f.call → t.story c = s.story c := fun c hc => by
        rw [hstory]
        simp [GaiEffect.call, hc.symm]
      have hsub : ∀ g ∈ l, g ∈ s.frames := fun g hg => by simp [hframes, hg]
      constructor
      case nodup =>
          rw [hinit]
          exact hl
      case called =>
          rw [hinit]
          exact fun g hg => hs.called g (hsub g hg)
      case future =>
          intro c hc
          have hlt := hs.called f hmem
          have hc : s.calls ≤ c := hc
          rw [hother c (by omega)]
          exact hs.future c hc
      case waits =>
          rw [hinit]
          intro g hg
          rw [hother _ fun heq => hapart _ (List.mem_map_of_mem hg) _ List.mem_cons_self heq]
          exact hs.waits g (hsub g hg)
      case done =>
          rw [hinit]
          intro c hc hnot
          by_cases heq : c = f.call
          · obtain ⟨host, ip, htold, hresult⟩ := (hs.waits f hmem).written h0
            rw [hstory, heq, htold, hresult]
            simpa [GaiEffect.call] using @Over.answered f.call host f.port ip
          · rw [hother c heq]
            refine hs.done c hc ?_
            rw [hframes, List.map_append, List.map_singleton, List.mem_append, List.mem_singleton]
            exact fun hin => hin.elim hnot heq
      case once => exact hs.once
      case pending =>
          intro r
          show r ∈ s.requests ↔ _
          rw [hs.pending, hinit, hframes]
          constructor
          · rintro ⟨g, hg, hcall, hg0⟩
            refine ⟨g, ?_, hcall, hg0⟩
            obtain ⟨hlt, -⟩ := List.getElem?_eq_some_iff.1 hg
            rw [List.length_append, List.length_singleton] at hlt
            by_cases harg : r.arg = l.length
            · -- the last call has its answer
              rw [harg, List.getElem?_concat_length] at hg
              obtain rfl := Option.some.inj hg
              exact absurd hg0 h0
            · rwa [List.getElem?_append_left (by omega)] at hg
          · rintro ⟨g, hg, hcall, hg0⟩
            obtain ⟨hlt, -⟩ := List.getElem?_eq_some_iff.1 hg
            exact ⟨g, by rw [List.getElem?_append_left hlt]; exact hg, hcall, hg0⟩

theorem Resolver.Ok.init : Resolver.init.Ok where
  nodup := List.nodup_nil
  called := fun f hf => by cases hf
  future := fun _ _ => rfl
  waits := fun f hf => by cases hf
  done := fun c hc => absurd hc (Nat.not_lt_zero c)
  once := List.nodup_nil
  pending := fun r => by simp [Resolver.init]

/-- Every step keeps the calls in order. -/
theorem resolver_step (hs : s.Ok) (h : resolver.Step s e t) : t.Ok := by
  obtain ⟨hen, hnext⟩ := h
  cases e with
  | call host port ret junk =>
      obtain rfl := Except.ok.inj hnext
      cases ret with
      | ok ip => exact hs.ends (o := .address ip port) .known
      | inprogress => exact hs.begins host port junk
      | error e =>
          have hneg : e < 0 := hen e rfl
          have hend := hs.ends (@Over.refused s.calls host port e hneg)
          show Resolver.Ok { s with
            calls := s.calls + 1
            log := s.log ++ [.asked s.calls host port (.error e),
              .returned s.calls (getaddrinfoResult ⟨e, junk⟩ port)] }
          rwa [getaddrinfoResult, if_pos hneg]
  | answer r ip =>
      obtain ⟨t', ht, hok⟩ := hs.answers hen ip
      obtain rfl : t' = t := Except.ok.inj (ht.symm.trans hnext)
      exact hok
  | poll =>
      obtain rfl := Except.ok.inj hnext
      exact hs.polls

/-- In every run of calls, answers and polls: no callback writes to a call that has returned; every request
that lwIP still has is of a call on the stack that is not yet answered, and holds the place of its state;
and every call asks once, is answered at most once, and returns nothing but what it was told. -/
theorem getaddrinfo_answers (hrun : resolver.Run Resolver.init es s) :
    (∀ f, ¬ resolver.Faults s f) ∧
    (∀ r ∈ s.requests, ∃ f, s.frames[r.arg]? = some f ∧ f.call = r.call ∧ f.state.status = 0) ∧
    (∀ f ∈ s.frames, Waits f (s.story f.call)) ∧
    ∀ c < s.calls, c ∉ s.frames.map GaiFrame.call → Over c (s.story c) := by
  have hok := hrun.invariant (fun _ _ _ hs h => resolver_step hs h) Resolver.Ok.init
  refine ⟨?_, fun r hr => (hok.pending r).1 hr, hok.waits, hok.done⟩
  rintro f ⟨e, hen, hnext⟩
  cases e with
  | call host port ret junk => cases hnext
  | answer r ip =>
      obtain ⟨t, ht, -⟩ := hok.answers hen ip
      cases ht.symm.trans hnext
  | poll => cases hnext

end Answers

/-- A callback of the program asks for a second host while the first is looked up, and the first answer
comes first: each call returns its own. -/
theorem getaddrinfo_answers_nested : ∃ s, resolver.Run Resolver.init
      [.call [97] 80 .inprogress 7, .poll, .call [98] 81 .inprogress 9, .answer ⟨0, 0⟩ (some 42), .poll,
        .answer ⟨1, 1⟩ none, .poll, .poll] s ∧
    s.frames = [] ∧ s.story 0 = [.asked 0 [97] 80 .inprogress, .answered 0 (some 42),
      .returned 0 (.address 42 80)] ∧
    Over 1 (s.story 1) := by
  have hexec := @Machine.Run.of_exec_any Resolver GaiEvent GaiFault resolver _ Resolver.init
    [.call [97] 80 .inprogress 7, .poll, .call [98] 81 .inprogress 9, .answer ⟨0, 0⟩ (some 42), .poll,
      .answer ⟨1, 1⟩ none, .poll, .poll]
    (fun s => s.frames == [] && s.calls == 2 && s.story 0 == [.asked 0 [97] 80 .inprogress,
      .answered 0 (some 42), .returned 0 (.address 42 80)]) (by decide +kernel)
  obtain ⟨s, hrun, hp⟩ := hexec
  obtain ⟨hp, hstory⟩ := Bool.and_eq_true_iff.1 hp
  obtain ⟨hframes, hcalls⟩ := Bool.and_eq_true_iff.1 hp
  have hframes := beq_iff_eq.1 hframes
  obtain ⟨-, -, -, hover⟩ := getaddrinfo_answers hrun
  refine ⟨s, hrun, hframes, beq_iff_eq.1 hstory, hover 1 ?_ ?_⟩
  · rw [beq_iff_eq.1 hcalls]
    decide
  · rw [hframes]
    exact List.not_mem_nil

end Minipython.Mods
