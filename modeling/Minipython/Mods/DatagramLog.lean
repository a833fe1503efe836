/-
# Minipython.Mods.DatagramLog — the datagrams that a socket hands out (modlwip.c)

`DgramInv` is the invariant of a datagram socket: its past is a legal history of a mailbox that now holds what
the socket holds, and what was taken from it are the datagrams that were kept.

The socket notes down what happens to it: a datagram that is kept or dropped, one that is taken with what
its reader got of it, a wait that ran out. `Lib.Mailbox` says what a legal history of a place for one
message is; each event of `datagrams` adds a legal piece to it, so `received_datagrams` reads everything off
the history: the order, the senders, the cut to the reader's buffer, and why a datagram was dropped or a
method gave up.

A close takes the datagram that is held without handing it to anybody. That happens once at most, as a
closed socket holds none any more. The packets that lwIP handed over are counted apart from that: each is
freed once, but for the one that is held.
-/
import Minipython.Mods.Datagram

namespace Minipython.Mods

open Minipython.Lib

/-- The packets that a close took, in order. -/
def discardedOf (log : List DgramEffect) : List DgramEffect :=
  (takenOf log).filter fun e => match e with
    | .discarded _ => true
    | _ => false

section Append

variable (l l' : List DgramEffect)

theorem actsOf_append : actsOf (l ++ l') = actsOf l ++ actsOf l' := List.filterMap_append

theorem takenOf_append : takenOf (l ++ l') = takenOf l ++ takenOf l' := List.filter_append ..

theorem arrivedOf_append : arrivedOf (l ++ l') = arrivedOf l ++ arrivedOf l' := List.filterMap_append

theorem dgramFreedOf_append : dgramFreedOf (l ++ l') = dgramFreedOf l ++ dgramFreedOf l' :=
  List.filterMap_append

theorem keptOf_append : keptOf (l ++ l') = keptOf l ++ keptOf l' := by
  rw [keptOf, actsOf_append, Mailbox.puts_append]
  rfl

theorem discardedOf_append : discardedOf (l ++ l') = discardedOf l ++ discardedOf l' := by
  rw [discardedOf, takenOf_append, List.filter_append]
  rfl

/-- The effects that take a datagram are the acts that do. -/
theorem takes_actsOf : Mailbox.takes (actsOf l) = (takenOf l).length := by
  induction l with
  | nil => rfl
  | cons e l ih =>
      cases e with
      | received _ _ _ | discarded _ => exact congrArg (· + 1) ih
      | kept _ | dropped _ | expired | freed _ | sends _ _ | returns _ => exact ih

end Append

/-- The socket is a mailbox. -/
structure DgramInv (c : DgramConn) : Prop where
  legal : Mailbox.Legal (actsOf c.log) c.socket.held
  delivers : ∃ taken, keptOf c.log = taken ++ c.socket.held.toList ∧
    List.Forall₂ Delivers taken (takenOf c.log)
  owned : (arrivedOf c.log).Perm (dgramFreedOf c.log ++ c.socket.incoming.toList)
  small : ∀ p, c.socket.incoming = some p → p.length ≤ 65535
  gone : c.socket.pcb = false → c.socket.incoming = none
  once : (discardedOf c.log).length + c.socket.pcb.toNat ≤ 1

section Step

variable {recent : Bool} {c c' : DgramConn}

/-- The datagrams are as they were. -/
structure DgramQuiet (c c' : DgramConn) : Prop where
  pcb : c'.socket.pcb = c.socket.pcb
  held : c'.socket.incoming = c.socket.incoming
  peer : c'.socket.peer = c.socket.peer
  log : ∃ l, c'.log = c.log ++ l ∧ ∀ e ∈ l, (∃ data dest, e = .sends data dest) ∨ ∃ o, e = .returns o

/-- Sends and results are nothing to the mailbox. -/
theorem quiet_effects {l : List DgramEffect}
    (hl : ∀ e ∈ l, (∃ data dest, e = .sends data dest) ∨ ∃ o, e = .returns o) :
    actsOf l = [] ∧ takenOf l = [] ∧ arrivedOf l = [] ∧ dgramFreedOf l = [] := by
  refine ⟨?_, ?_, ?_, ?_⟩
  · refine List.filterMap_eq_nil_iff.2 fun e he => ?_
    rcases hl e he with ⟨_, _, rfl⟩ | ⟨_, rfl⟩ <;> rfl
  · refine List.filter_eq_nil_iff.2 fun e he => ?_
    rcases hl e he with ⟨_, _, rfl⟩ | ⟨_, rfl⟩ <;> simp [DgramEffect.takes]
  · refine List.filterMap_eq_nil_iff.2 fun e he => ?_
    rcases hl e he with ⟨_, _, rfl⟩ | ⟨_, rfl⟩ <;> rfl
  · refine List.filterMap_eq_nil_iff.2 fun e he => ?_
    rcases hl e he with ⟨_, _, rfl⟩ | ⟨_, rfl⟩ <;> rfl

theorem DgramInv.quiet (h : DgramInv c) (hq : DgramQuiet c c') : DgramInv c' := by
  rcases hq.log with ⟨l, hlog, hl⟩
  rcases quiet_effects hl with ⟨hacts, htaken, harrived, hfreed⟩
  have hheld : c'.socket.held = c.socket.held := by
    rw [DgramSocket.held, hq.held, hq.peer]
    rfl
  have hkept : keptOf c'.log = keptOf c.log := by
    rw [keptOf, hlog, actsOf_append, hacts, List.append_nil]
    rfl
  have hdiscarded : discardedOf c'.log = discardedOf c.log := by
    rw [hlog, discardedOf_append, discardedOf, discardedOf, htaken]
    simp
  constructor
  · rw [hlog, actsOf_append, hacts, List.append_nil, hheld]
    exact h.legal
  · rw [hkept, hheld, hlog, takenOf_append, htaken, List.append_nil]
    exact h.delivers
  · rw [hlog, arrivedOf_append, dgramFreedOf_append, harrived, hfreed, List.append_nil, List.append_nil, hq.held]
    exact h.owned
  · rw [hq.held]
    exact h.small
  · rw [hq.pcb, hq.held]
    exact h.gone
  · rw [hq.pcb, hdiscarded]
    exact h.once

theorem DgramQuiet.ends (c : DgramConn) (o : DgramOutcome) : DgramQuiet c (c.ends o) :=
  ⟨rfl, rfl, rfl, _, rfl, by simp⟩

theorem DgramQuiet.sends (c : DgramConn) (data : List UInt8) (dest : Option Peer) (o : DgramOutcome) :
    DgramQuiet c ((c.emit [.sends data dest]).ends o) :=
  ⟨rfl, rfl, rfl, [.sends data dest, .returns o], List.append_assoc .., by simp⟩

/-- The frames may change. -/
theorem DgramQuiet.of_log (hpcb : c'.socket.pcb = c.socket.pcb) (hheld : c'.socket.incoming = c.socket.incoming)
    (hpeer : c'.socket.peer = c.socket.peer) (hlog : c'.log = c.log) : DgramQuiet c c' :=
  ⟨hpcb, hheld, hpeer, [], by rw [hlog, List.append_nil], by simp⟩

/-- A datagram arrives while one is kept. -/
theorem DgramInv.dropped (h : DgramInv c) {p : List UInt8} (hin : c.socket.incoming = some p) (d : Datagram) :
    DgramInv (c.emit [.dropped d, .freed d.payload]) := by
  have hlegal := h.legal
  have howned := h.owned
  rcases h.delivers with ⟨taken, hkept, htaken⟩
  rw [DgramSocket.held, hin] at hlegal
  constructor
  · rw [DgramConn.emit, actsOf_append, DgramSocket.held, hin]
    exact hlegal.drop d
  · refine ⟨taken, ?_, ?_⟩
    · rw [DgramConn.emit, keptOf_append, hkept]
      exact List.append_nil _
    · rw [DgramConn.emit, takenOf_append]
      exact (List.append_nil _).symm ▸ htaken
  · rw [DgramConn.emit, arrivedOf_append, dgramFreedOf_append]
    refine (howned.append_right [d.payload]).trans ?_
    rw [List.append_assoc, List.append_assoc]
    exact List.perm_append_comm.append_left _
  · exact h.small
  · exact h.gone
  · rw [DgramConn.emit, discardedOf_append]
    exact (List.append_nil _).symm ▸ h.once

/-- A datagram arrives while none is kept. -/
theorem DgramInv.kept (h : DgramInv c) (hin : c.socket.incoming = none) {d : Datagram}
    (hpcb : c.socket.pcb = true) (hd : d.payload.length ≤ 65535) :
    DgramInv ({ c with socket := { c.socket with incoming := some d.payload, peer := d.src } }.emit
      [.kept d]) := by
  have hlegal := h.legal
  have howned := h.owned
  rcases h.delivers with ⟨taken, hkept, htaken⟩
  rw [DgramSocket.held, hin] at hlegal hkept
  rw [hin] at howned
  constructor
  · rw [DgramConn.emit, actsOf_append]
    exact hlegal.put d
  · refine ⟨taken, ?_, ?_⟩
    · rw [DgramConn.emit, keptOf_append, hkept, Option.map_none, Option.toList_none, List.append_nil]
      rfl
    · rw [DgramConn.emit, takenOf_append]
      exact (List.append_nil _).symm ▸ htaken
  · rw [DgramConn.emit, arrivedOf_append, dgramFreedOf_append]
    have hnew := howned.append_right [d.payload]
    rw [Option.toList_none, List.append_nil] at hnew
    exact (List.append_nil (dgramFreedOf c.log)).symm ▸ hnew
  · intro p hp
    exact Option.some.inj hp ▸ hd
  · intro hp
    exact absurd (hpcb.symm.trans hp) Bool.noConfusion
  · rw [DgramConn.emit, discardedOf_append]
    exact (List.append_nil _).symm ▸ h.once

/-- The datagram in the socket is taken. -/
theorem DgramInv.take (h : DgramInv c) {p : List UInt8} (hin : c.socket.incoming = some p) {e : DgramEffect}
    (hdel : Delivers ⟨p, c.socket.peer⟩ e) (o : DgramOutcome) {s : DgramSocket} (hs : s.incoming = none)
    (hopen : (discardedOf [e]).length + s.pcb.toNat ≤ 1) (frames : List DgramFrame) :
    DgramInv ⟨s, frames, c.log ++ [e, .freed p, .returns o]⟩ := by
  have hlegal := h.legal
  have howned := h.owned
  rcases h.delivers with ⟨taken, hkept, htaken⟩
  rw [DgramSocket.held, hin] at hlegal hkept
  rw [hin] at howned
  have hview : actsOf [e, .freed p, .returns o] = [.take] ∧ takenOf [e, .freed p, .returns o] = [e] ∧
      arrivedOf [e, .freed p, .returns o] = [] ∧ dgramFreedOf [e, .freed p, .returns o] = [p] ∧
      discardedOf [e, .freed p, .returns o] = discardedOf [e] := by
    cases hdel <;> exact ⟨rfl, rfl, rfl, rfl, rfl⟩
  rcases hview with ⟨hacts, htake, harrived, hfreed, hdisc⟩
  have hheld : s.held = none := by rw [DgramSocket.held, hs]; rfl
  -- the socket is open, as it holds something
  have hpcb : c.socket.pcb = true := by
    by_contra hno
    have hgone := h.gone (Bool.eq_false_iff.2 hno)
    rw [hin] at hgone
    cases hgone
  constructor
  · simp only
    rw [actsOf_append, hacts, hheld]
    exact hlegal.take
  · refine ⟨taken ++ [⟨p, c.socket.peer⟩], ?_, ?_⟩
    · simp only
      rw [keptOf, actsOf_append, hacts, Mailbox.puts_append, hheld]
      exact congrArg (· ++ []) hkept
    · simp only
      rw [takenOf_append, htake]
      exact List.rel_append htaken (.cons hdel .nil)
  · simp only
    rw [arrivedOf_append, dgramFreedOf_append, harrived, hfreed, hs, List.append_nil, Option.toList_none,
      List.append_nil]
    exact howned
  · intro q hq
    rw [hs] at hq
    cases hq
  · exact fun _ => hs
  · simp only
    have hnone := h.once
    rw [hpcb, Bool.toNat_true] at hnone
    rw [discardedOf_append, hdisc, List.length_append]
    omega

/-- Nothing is there when a method gives up. -/
theorem DgramInv.expired (h : DgramInv c) (hin : c.socket.incoming = none) (o : DgramOutcome) :
    DgramInv (c.emit [.expired, .returns o]) := by
  have hlegal := h.legal
  rcases h.delivers with ⟨taken, hkept, htaken⟩
  rw [DgramSocket.held, hin] at hlegal
  constructor
  · rw [DgramConn.emit, actsOf_append, DgramSocket.held, hin]
    exact hlegal.miss
  · refine ⟨taken, ?_, ?_⟩
    · rw [DgramConn.emit, keptOf_append, hkept]
      exact List.append_nil _
    · rw [DgramConn.emit, takenOf_append]
      exact (List.append_nil _).symm ▸ htaken
  · rw [DgramConn.emit, arrivedOf_append, dgramFreedOf_append]
    exact (List.append_nil (arrivedOf c.log)).symm ▸ (List.append_nil (dgramFreedOf c.log)).symm ▸ h.owned
  · exact h.small
  · exact h.gone
  · rw [DgramConn.emit, discardedOf_append]
    exact (List.append_nil _).symm ▸ h.once

/-! ## The methods -/

theorem DgramInv.receiveTurn (h : DgramInv c) (f : DgramFrame) : DgramInv (udpReceiveTurn c f) := by
  unfold udpReceiveTurn
  cases hin : c.socket.incoming with
  | some p =>
      have hlen : (if f.len < p.length then f.len else p.length) ≤ 65535 := by
        have hp := h.small p hin
        split <;> omega
      have hresult : pbufCopyPartial p (toU16 (if f.len < p.length then f.len else p.length)) 0 =
          p.take f.len := by
        rw [toU16, Nat.mod_eq_of_lt (by omega), pbufCopyPartial, List.drop_zero]
        split
        · rfl
        · rw [List.take_length, List.take_of_length_le (by omega)]
      have hopen : (discardedOf [DgramEffect.received f.len (p.take f.len)
          (if f.src then some c.socket.peer else none)]).length + c.socket.pcb.toNat ≤ 1 := by
        have hle := Bool.toNat_le c.socket.pcb
        exact (Nat.zero_add c.socket.pcb.toNat).symm ▸ hle
      simp only [udpReceiveData, hresult]
      exact h.take hin (.received f.len f.src) _ (s := { c.socket with incoming := none }) rfl hopen c.frames
  | none =>
      cases f.retries with
      | none => exact h.quiet (.of_log rfl rfl rfl rfl)
      | some n =>
          cases n with
          | zero => exact h.expired hin _
          | succ k => exact h.quiet (.of_log rfl rfl rfl rfl)

theorem DgramInv.close (h : DgramInv c) : DgramInv (dgramClose c) := by
  unfold dgramClose
  split
  · exact h.quiet (.ends c _)
  · cases hin : c.socket.incoming with
    | some p =>
        simp only [DgramConn.emit, DgramConn.ends, List.append_assoc]
        exact h.take hin .discarded .none
          (s := { c.socket with pcb := false, state := errBadf, incoming := none }) rfl (Nat.le_refl 1) c.frames
    | none =>
        have hclosed : DgramInv { c with socket := { c.socket with pcb := false, state := errBadf } } :=
          ⟨h.legal, h.delivers, h.owned, h.small, fun _ => hin,
            Nat.le_trans (Nat.add_le_add_left (Nat.zero_le _) _) h.once⟩
        exact hclosed.quiet (.ends _ _)

/-- `lwip_udp_send` leaves the datagram in the socket alone. -/
theorem lwipUdpSend_quiet {buf : List UInt8} {dest : Option Peer} {env : UdpEnv}
    (hn : lwipUdpSend recent c buf dest env = .ok c') : DgramQuiet c c' := by
  unfold lwipUdpSend at hn
  simp only at hn
  split at hn
  · exact Except.ok.inj hn ▸ .ends c _
  · split at hn
    · cases hn
    · split at hn <;> exact Except.ok.inj hn ▸ .sends c _ _ _

/-- A method behind `lwip_socket_check_connected`. -/
theorem DgramInv.checkConnected (h : DgramInv c) {rest : Except SockFault DgramConn}
    (hrest : ∀ d, rest = .ok d → DgramInv d) (hn : dgramCheckConnected recent c rest = .ok c') :
    DgramInv c' := by
  unfold dgramCheckConnected at hn
  split at hn
  · exact Except.ok.inj hn ▸ h.quiet ⟨rfl, rfl, rfl, _, rfl, by simp⟩
  · exact hrest c' hn

theorem DgramInv.step (h : DgramInv c) {e : DgramEvent} (hs : (datagrams recent).Step c e c') :
    DgramInv c' := by
  rcases hs with ⟨hen, hn⟩
  have hn : dgramNext recent c e = .ok c' := hn
  cases e with
  | incoming d =>
      have henabled : c.socket.pcb = true ∧ d.payload.length ≤ 65535 := hen
      rw [← Except.ok.inj hn]
      unfold lwipUdpIncoming
      cases hin : c.socket.incoming with
      | some p =>
          rw [if_pos (by simp)]
          exact h.dropped hin d
      | none =>
          rw [if_neg (by simp)]
          exact h.kept hin henabled.1 henabled.2
  | bind err =>
      simp only [dgramNext, dgramBind] at hn
      split at hn
      · cases hn
      · split at hn <;> exact Except.ok.inj hn ▸ h.quiet (.ends c _)
  | listen | accept =>
      simp only [dgramNext, dgramListen] at hn
      split at hn <;> exact Except.ok.inj hn ▸ h.quiet (.ends c _)
  | connect err =>
      simp only [dgramNext, dgramConnect] at hn
      split at hn
      · exact Except.ok.inj hn ▸ h.quiet (.ends c _)
      · split at hn <;> exact Except.ok.inj hn ▸ h.quiet (.ends c _)
  | send buf env => exact h.checkConnected (fun d hd => h.quiet (lwipUdpSend_quiet hd)) hn
  | sendto buf dest env => exact h.checkConnected (fun d hd => h.quiet (lwipUdpSend_quiet hd)) hn
  | write buf env => exact h.quiet (lwipUdpSend_quiet hn)
  | recv len => exact h.checkConnected (fun d hd => Except.ok.inj hd ▸ h.receiveTurn _) hn
  | recvfrom len => exact h.checkConnected (fun d hd => Except.ok.inj hd ▸ h.receiveTurn _) hn
  | read len => exact Except.ok.inj hn ▸ h.receiveTurn _
  | sendall => exact h.checkConnected (fun d hd => Except.ok.inj hd ▸ h.quiet (.ends c _)) hn
  | settimeout timeout => exact Except.ok.inj hn ▸ h.quiet ⟨rfl, rfl, rfl, _, rfl, by simp⟩
  | close => exact Except.ok.inj hn ▸ h.close
  | turn =>
      rw [← Except.ok.inj hn]
      unfold dgramTurn
      cases c.frames with
      | nil => exact h
      | cons f frames =>
          have hpop : DgramInv { c with frames := frames } := h.quiet (.of_log rfl rfl rfl rfl)
          exact hpop.receiveTurn f

end Step

theorem dgramInv_makeNew (peer : Peer) : DgramInv (dgramMakeNew peer) :=
  ⟨.nil, ⟨[], rfl, .nil⟩, .nil, by simp [dgramMakeNew], by simp [dgramMakeNew], Nat.le_refl 1⟩

/-- A datagram socket is a mailbox for one message, in every run. What was taken, each time as far as the
buffer had room and with its own sender, is what was kept, in order and each once, up to the one that the
socket holds; only a close takes without a reader, and at most once. A datagram is dropped only while another
is held, and a method gives up only while none is. Each packet that lwIP handed over was freed once, but for
the one that is held. -/
theorem received_datagrams {recent : Bool} {peer : Peer} {c : DgramConn} {es : List DgramEvent}
    (hrun : (datagrams recent).Run (dgramMakeNew peer) es c) :
    (∃ taken, keptOf c.log = taken ++ c.socket.held.toList ∧ List.Forall₂ Delivers taken (takenOf c.log)) ∧
    (discardedOf c.log).length ≤ 1 ∧
    (∀ l d l', c.log = l ++ .dropped d :: l' → (keptOf l).length = (takenOf l).length + 1) ∧
    (∀ l l', c.log = l ++ .expired :: l' → (keptOf l).length = (takenOf l).length) ∧
    (arrivedOf c.log).Perm (dgramFreedOf c.log ++ c.socket.incoming.toList) := by
  have h : DgramInv c := hrun.invariant (I := DgramInv) (fun _ _ _ hu hs => hu.step hs) (dgramInv_makeNew peer)
  refine ⟨h.delivers, Nat.le_of_add_right_le h.once, ?_, ?_, h.owned⟩
  · intro l d l' hlog
    have hlegal := h.legal
    rw [hlog, actsOf_append] at hlegal
    have hat : (keptOf l).length = Mailbox.takes (actsOf l) + 1 := hlegal.at_act
    rw [hat, takes_actsOf]
  · intro l l' hlog
    have hlegal := h.legal
    rw [hlog, actsOf_append] at hlegal
    have hat : (keptOf l).length = Mailbox.takes (actsOf l) + 0 := hlegal.at_act
    rw [hat, takes_actsOf, Nat.add_zero]

/-- A reader waits, is given the start of the first of two datagrams, and its next read gives up; a close takes
the third datagram. -/
theorem received_datagrams_three : ∃ c : DgramConn,
    takenOf c.log = [.received 2 [1, 2] (some ⟨[10, 0, 0, 1], 7⟩), .discarded [5]] ∧
    (∃ taken, keptOf c.log = taken ++ c.socket.held.toList ∧ List.Forall₂ Delivers taken (takenOf c.log)) ∧
    (discardedOf c.log).length ≤ 1 ∧
    (∀ l d l', c.log = l ++ .dropped d :: l' → (keptOf l).length = (takenOf l).length + 1) ∧
    (∀ l l', c.log = l ++ .expired :: l' → (keptOf l).length = (takenOf l).length) ∧
    (arrivedOf c.log).Perm (dgramFreedOf c.log ++ c.socket.incoming.toList) := by
  have hexec : ((datagrams true).exec (dgramMakeNew ⟨[0, 0, 0, 0], 0⟩)
      [.recvfrom 2, .incoming ⟨[1, 2, 3], ⟨[10, 0, 0, 1], 7⟩⟩, .incoming ⟨[4], ⟨[10, 0, 0, 2], 8⟩⟩, .turn,
        .settimeout (some 100), .recv 4, .turn, .incoming ⟨[5], ⟨[10, 0, 0, 2], 8⟩⟩, .close]).any
      (fun c => takenOf c.log = [.received 2 [1, 2] (some ⟨[10, 0, 0, 1], 7⟩), .discarded [5]]) = true := by
    decide
  rcases Machine.Run.of_exec_any hexec with ⟨c, hrun, htaken⟩
  exact ⟨c, of_decide_eq_true htaken, received_datagrams hrun⟩

end Minipython.Mods
