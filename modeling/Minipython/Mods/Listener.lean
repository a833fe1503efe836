/-
# Minipython.Mods.Listener — the connections that a listening socket hands out (modlwip.c)

`_lwip_tcp_accept` keeps one connection in the socket and refuses the next one; `lwip_socket_accept` makes a
socket of the one that is kept, and `lwip_socket_close` aborts it. What a run does with connections is noted
down step by step, as most of it leaves no trace in the socket.

The history is that of a mailbox for one connection (`Lib.Mailbox`): kept, dropped when one is kept already,
taken by an accept, missed by an accept that gives up. `listener_queue` reads off it that connections leave
the socket in the order of their arrival and each once, that one is refused only while another is held, and
that a close aborts one at most.

The socket is new and no call of the run connects it (`ListenEvent`): on a connected socket the union that
holds the connection holds a packet. Everything else may happen, a callback in the middle of an accept, a
second accept while one waits, or a close under it.
-/
import Minipython.Lib.Mailbox
import Minipython.Lib.Machine
import Minipython.Mods.Socket

namespace Minipython.Mods

open Minipython.Lib

/-- What a step does with a connection. -/
inductive ListenNote where
  /-- `_lwip_tcp_accept` and its answer -/
  | offered (pcb : Nat) (answer : Int)
  | handed (pcb : Nat)
  | aborted (pcb : Nat)
  /-- `lwip_socket_accept` gives up -/
  | expired
  deriving DecidableEq, Repr

/-- The connection in the socket. -/
def connOf (s : Socket) : Option Nat :=
  match s.incoming with
  | .connection pcb => some pcb
  | _ => none

/-- What a turn of `lwip_socket_accept` does with a connection. -/
def acceptNote (s : Socket) (late : Bool) : List ListenNote :=
  match connOf s with
  | some pcb => [.handed pcb]
  | none => if s.timeout ≠ none ∧ late then [.expired] else []

def listenNote (c : Conn) : SockEvent → List ListenNote
  | .acceptCb newpcb => [.offered newpcb (lwipTcpAccept c newpcb).1]
  | .accept late => if c.socket.pcb = some ⟨true⟩ then acceptNote c.socket late else []
  | .turn env => if c.frames.head? = some .accept then acceptNote c.socket env.late else []
  | .close _ => if c.socket.pcb = none then [] else (connOf c.socket).toList.map .aborted
  | _ => []

/-- A socket that is never connected. -/
def ListenEvent : SockEvent → Prop
  | .connect _ _ => False
  | _ => True

/-- What a note is to the mailbox. -/
def ListenNote.act : ListenNote → Mailbox.Act Nat
  | .offered pcb answer => if answer = errOk then .put pcb else .drop pcb
  | .handed _ | .aborted _ => .take
  | .expired => .miss

def ListenNote.taken : ListenNote → Option Nat
  | .handed pcb | .aborted pcb => some pcb
  | _ => none

def ListenNote.abort : ListenNote → Option Nat
  | .aborted pcb => some pcb
  | _ => none

/-- The connections that `_lwip_tcp_accept` kept, in order. -/
def keptConns (l : List ListenNote) : List Nat := Mailbox.puts (l.map ListenNote.act)

/-- The connections that left the socket, in order. -/
def takenConns (l : List ListenNote) : List Nat := l.filterMap ListenNote.taken

/-- The connections that were aborted. -/
def abortedConns (l : List ListenNote) : List Nat := l.filterMap ListenNote.abort

/-- The connections that `lwip_socket_accept` returned, in order. -/
def socketsOf (log : List Effect) : List Nat :=
  log.filterMap fun e => match e with
    | .returns (.socket pcb) => some pcb
    | _ => none

section Append

theorem socketsOf_append (l l' : List Effect) : socketsOf (l ++ l') = socketsOf l ++ socketsOf l' :=
  List.filterMap_append

variable (l l' : List ListenNote)

theorem keptConns_append : keptConns (l ++ l') = keptConns l ++ keptConns l' := by
  rw [keptConns, List.map_append, Mailbox.puts_append]
  rfl

theorem takenConns_append : takenConns (l ++ l') = takenConns l ++ takenConns l' := List.filterMap_append

theorem abortedConns_append : abortedConns (l ++ l') = abortedConns l ++ abortedConns l' :=
  List.filterMap_append

theorem takes_act : Mailbox.takes (l.map ListenNote.act) = (takenConns l).length := by
  induction l with
  | nil => rfl
  | cons n l ih =>
      cases n with
      | handed _ | aborted _ => exact congrArg (· + 1) ih
      | expired => exact ih
      | offered pcb answer =>
          rw [List.map_cons, ListenNote.act]
          split <;> exact ih

end Append

/-- The socket is a mailbox for connections. -/
structure ListenInv (c : Conn) (l : List ListenNote) : Prop where
  legal : Mailbox.Legal (l.map ListenNote.act) (connOf c.socket)
  queue : keptConns l = takenConns l ++ (connOf c.socket).toList
  handed : (takenConns l).Perm (socketsOf c.log ++ abortedConns l)
  order : (socketsOf c.log).Sublist (takenConns l)
  once : (abortedConns l).length + c.socket.pcb.isSome.toNat ≤ 1
  recv : c.callbacks.recv = false
  packet : ∀ p, c.socket.incoming ≠ .pbuf p

section Step

variable {recent : Bool} {c c' : Conn} {l : List ListenNote} {late : Bool}

/-- The connections are as they were. -/
structure ListenQuiet (c c' : Conn) : Prop where
  incoming : c'.socket.incoming = c.socket.incoming
  pcb : c'.socket.pcb.isSome = true → c.socket.pcb.isSome = true
  recv : c.callbacks.recv = false → c'.callbacks.recv = false
  log : ∃ effects, c'.log = c.log ++ effects ∧ socketsOf effects = []

theorem ListenQuiet.connOf_eq (hq : ListenQuiet c c') : connOf c'.socket = connOf c.socket := by
  rw [connOf, hq.incoming]
  rfl

theorem ListenInv.quiet (h : ListenInv c l) (hq : ListenQuiet c c') : ListenInv c' l := by
  rcases hq.log with ⟨effects, hlog, hnone⟩
  have hsockets : socketsOf c'.log = socketsOf c.log := by rw [hlog, socketsOf_append, hnone, List.append_nil]
  have hpcb : c'.socket.pcb.isSome.toNat ≤ c.socket.pcb.isSome.toNat := by
    have himp := hq.pcb
    cases hs : c'.socket.pcb.isSome with
    | false => exact Nat.zero_le _
    | true => exact (himp hs).symm ▸ Nat.le_refl _
  constructor
  · rw [hq.connOf_eq]
    exact h.legal
  · rw [hq.connOf_eq]
    exact h.queue
  · rw [hsockets]
    exact h.handed
  · rw [hsockets]
    exact h.order
  · exact Nat.le_trans (Nat.add_le_add_left hpcb _) h.once
  · exact hq.recv h.recv
  · rw [hq.incoming]
    exact h.packet

/-- A method is over, with anything but a connection. -/
theorem ListenQuiet.ends (c : Conn) {o : Outcome} (ho : socketsOf [.returns o] = []) :
    ListenQuiet c (c.ends o) :=
  ⟨rfl, id, id, _, rfl, ho⟩

theorem ListenQuiet.failed (c : Conn) (e : Option SockErrno) : ListenQuiet c (c.ends (.failed e)) :=
  .ends c rfl

theorem ListenQuiet.waits (c : Conn) (f : Frame) : ListenQuiet c (c.waits f) :=
  ⟨rfl, id, id, [], (List.append_nil _).symm, rfl⟩

/-- A note that takes nothing. -/
theorem ListenInv.note (h : ListenInv c l) {n : ListenNote} (htaken : takenConns [n] = [])
    (haborted : abortedConns [n] = []) {s : Socket} (hpcb : s.pcb = c.socket.pcb)
    (hpacket : ∀ p, s.incoming ≠ .pbuf p)
    (hlegal : Mailbox.Legal (l.map ListenNote.act ++ [n.act]) (connOf s))
    (hqueue : (connOf c.socket).toList ++ keptConns [n] = (connOf s).toList) :
    ListenInv { c with socket := s } (l ++ [n]) := by
  have htaken : takenConns (l ++ [n]) = takenConns l := by rw [takenConns_append, htaken, List.append_nil]
  have haborted : abortedConns (l ++ [n]) = abortedConns l := by
    rw [abortedConns_append, haborted, List.append_nil]
  constructor
  · rw [List.map_append]
    exact hlegal
  · rw [keptConns_append, h.queue, htaken, List.append_assoc, hqueue]
  · rw [htaken, haborted]
    exact h.handed
  · rw [htaken]
    exact h.order
  · rw [haborted, hpcb]
    exact h.once
  · exact h.recv
  · exact hpacket

/-- A connection is offered. -/
theorem ListenInv.offered (h : ListenInv c l) (newpcb : Nat) :
    ListenInv (lwipTcpAccept c newpcb).2 (l ++ [.offered newpcb (lwipTcpAccept c newpcb).1]) := by
  unfold lwipTcpAccept
  have hlegal := h.legal
  cases hin : c.socket.incoming with
  | pbuf p => exact absurd hin (h.packet p)
  | connection pcb =>
      have hconn : connOf c.socket = some pcb := by rw [connOf, hin]
      rw [hconn] at hlegal
      rw [if_pos (by simp)]
      refine h.note (s := c.socket) rfl rfl rfl h.packet ?_ ?_
      · rw [hconn]
        exact hlegal.drop newpcb
      · exact List.append_nil _
  | null =>
      have hconn : connOf c.socket = none := by rw [connOf, hin]
      rw [hconn] at hlegal
      rw [if_neg (by simp)]
      refine h.note rfl rfl rfl (by simp) (hlegal.put newpcb) ?_
      rw [hconn]
      rfl

/-- A turn of `lwip_socket_accept`. -/
theorem ListenInv.acceptTurn (h : ListenInv c l) (hn : Mods.acceptTurn c late = .ok c') :
    ListenInv c' (l ++ acceptNote c.socket late) := by
  unfold Mods.acceptTurn at hn
  have hlegal := h.legal
  cases hin : c.socket.incoming with
  | pbuf p => exact absurd hin (h.packet p)
  | null =>
      have hconn : connOf c.socket = none := by rw [connOf, hin]
      simp only [acceptNote, hconn]
      rw [hconn] at hlegal
      simp only [hin] at hn
      split at hn
      · rename_i hlate
        rw [if_pos hlate]
        have hstep : ListenInv c (l ++ [.expired]) := by
          refine h.note (s := c.socket) rfl rfl rfl h.packet ?_ (List.append_nil _)
          rw [hconn]
          exact hlegal.miss
        exact Except.ok.inj hn ▸ hstep.quiet (.failed c _)
      · rename_i hlate
        rw [if_neg hlate, List.append_nil]
        exact Except.ok.inj hn ▸ h.quiet (.waits c _)
  | connection pcb =>
      have hconn : connOf c.socket = some pcb := by rw [connOf, hin]
      rw [acceptNote, hconn]
      simp only [hin] at hn
      rw [← Except.ok.inj hn]
      have htaken : takenConns (l ++ [.handed pcb]) = takenConns l ++ [pcb] := takenConns_append _ _
      have haborted : abortedConns (l ++ [.handed pcb]) = abortedConns l := by
        rw [abortedConns_append]
        exact List.append_nil _
      have hsockets : socketsOf (c.log ++ [.returns (.socket pcb)]) = socketsOf c.log ++ [pcb] :=
        socketsOf_append _ _
      refine ⟨?_, ?_, ?_, ?_, ?_, h.recv, ?_⟩
      · rw [List.map_append]
        exact (hconn ▸ hlegal).take
      · rw [keptConns_append, h.queue, htaken, hconn]
        rfl
      · simp only [Conn.ends, Conn.emit]
        rw [htaken, haborted, hsockets, List.append_assoc]
        refine (h.handed.append_right [pcb]).trans ?_
        rw [List.append_assoc]
        exact List.perm_append_comm.append_left _
      · simp only [Conn.ends, Conn.emit]
        rw [htaken, hsockets]
        exact h.order.append (.refl _)
      · rw [haborted]
        exact h.once
      · intro p hp
        cases hp

/-- `lwip_socket_close` aborts the connection that is kept. -/
theorem ListenInv.close (h : ListenInv c l) {ok : Bool} (hn : lwipSocketClose c ok = .ok c') :
    ListenInv c' (l ++ listenNote c (.close ok)) := by
  unfold lwipSocketClose at hn
  have hlegal := h.legal
  rw [listenNote]
  cases hpcb : c.socket.pcb with
  | none =>
      simp only [hpcb] at hn
      rw [if_pos rfl, List.append_nil]
      exact Except.ok.inj hn ▸ h.quiet (.ends c rfl)
  | some pcb =>
      rw [if_neg (by simp)]
      simp only [hpcb] at hn
      have honce := h.once
      rw [hpcb] at honce
      have hcb : (if ok then c.callbacks else Callbacks.off).recv = false := by
        cases ok with
        | true => exact h.recv
        | false => rfl
      cases hin : c.socket.incoming with
      | pbuf p => exact absurd hin (h.packet p)
      | null =>
          have hconn : connOf c.socket = none := by rw [connOf, hin]
          simp only [hin] at hn
          rw [hconn, Option.toList_none, List.map_nil, List.append_nil]
          exact Except.ok.inj hn ▸ h.quiet ⟨hin.symm, by simp [Conn.ends, Conn.emit], fun _ => hcb, _, rfl, rfl⟩
      | connection k =>
          have hconn : connOf c.socket = some k := by rw [connOf, hin]
          cases hlisten : pcb.listen with
          | false =>
              simp only [hin, hlisten] at hn
              cases hn
          | true =>
              simp only [hin, hlisten] at hn
              rw [hconn, ← Except.ok.inj hn]
              have htaken : takenConns (l ++ [.aborted k]) = takenConns l ++ [k] := takenConns_append _ _
              have haborted : abortedConns (l ++ [.aborted k]) = abortedConns l ++ [k] :=
                abortedConns_append _ _
              have hsockets : socketsOf (c.log ++ [.returns .none]) = socketsOf c.log := by
                rw [socketsOf_append]
                exact List.append_nil _
              simp only [Option.toList_some, List.map_singleton, Conn.ends, Conn.emit]
              refine ⟨?_, ?_, ?_, ?_, ?_, hcb, ?_⟩
              · rw [List.map_append]
                exact (hconn ▸ hlegal).take
              · rw [keptConns_append, h.queue, htaken, hconn]
                rfl
              · rw [htaken, haborted, hsockets, ← List.append_assoc]
                exact h.handed.append_right [k]
              · rw [htaken, hsockets]
                exact h.order.trans (List.sublist_append_left _ _)
              · rw [haborted, List.length_append]
                exact honce
              · intro p hp
                cases hp

/-! ## The other methods -/

/-- Without a packet there is nothing to receive. -/
theorem receiveData_fails (hpacket : ∀ p, c.socket.incoming ≠ .pbuf p) {len : Nat} :
    ∀ c', receiveData c len ≠ .ok c' := by
  intro c' hn
  unfold receiveData at hn
  split at hn
  · cases hn
  · cases hin : c.socket.incoming with
    | pbuf p => exact hpacket p hin
    | null => simp only [hin] at hn; cases hn
    | connection k => simp only [hin] at hn; cases hn

theorem receiveTurn_quiet (hpacket : ∀ p, c.socket.incoming ≠ .pbuf p) {len : Nat}
    (hn : receiveTurn recent c len late = .ok c') : ListenQuiet c c' := by
  unfold receiveTurn at hn
  split at hn
  · split at hn
    · exact Except.ok.inj hn ▸ .failed c _
    · exact Except.ok.inj hn ▸ .waits c _
  · split at hn
    · split at hn
      · exact Except.ok.inj hn ▸ .ends c rfl
      · exact absurd hn (receiveData_fails hpacket c')
    · split at hn
      · split at hn
        · exact Except.ok.inj hn ▸ .failed c _
        · cases hn
      · exact absurd hn (receiveData_fails hpacket c')

/-- `STREAM_ERROR_CHECK` in front of a quiet rest. -/
theorem streamErrorCheck_quiet {rest : Except SockFault Conn} (hrest : rest = .ok c' → ListenQuiet c c')
    (hn : streamErrorCheck recent c rest = .ok c') : ListenQuiet c c' := by
  unfold streamErrorCheck at hn
  split at hn
  · exact Except.ok.inj hn ▸ .failed c _
  · split at hn
    · cases hn
    · exact hrest hn

theorem lwipTcpReceive_quiet (hpacket : ∀ p, c.socket.incoming ≠ .pbuf p) {len : Nat}
    (hn : lwipTcpReceive recent c len late = .ok c') : ListenQuiet c c' := by
  refine streamErrorCheck_quiet (fun hn => ?_) hn
  split at hn
  · split at hn
    · split at hn
      · exact Except.ok.inj hn ▸ .ends c rfl
      · exact Except.ok.inj hn ▸ .failed c _
    · exact receiveTurn_quiet hpacket hn
  · exact absurd hn (receiveData_fails hpacket c')

theorem sendWrite_quiet {len available : Nat} {err : Int}
    (hn : sendWrite recent c len available err = .ok c') : ListenQuiet c c' := by
  unfold sendWrite at hn
  split at hn
  · exact Except.ok.inj hn ▸ .failed c _
  · exact Except.ok.inj hn ▸ .ends c rfl

theorem sendTurn_quiet {len : Nat} {env : SendEnv} (hn : sendTurn recent c len env = .ok c') :
    ListenQuiet c c' := by
  unfold sendTurn at hn
  split at hn
  · split at hn
    · cases hn
    · split at hn
      · split at hn
        · exact Except.ok.inj hn ▸ .failed c _
        · exact Except.ok.inj hn ▸ .waits c _
      · exact streamErrorCheck_quiet sendWrite_quiet hn
  · exact streamErrorCheck_quiet sendWrite_quiet hn

theorem lwipTcpSend_quiet {len available : Nat} {env : SendEnv}
    (hn : lwipTcpSend recent c len available env = .ok c') : ListenQuiet c c' := by
  refine streamErrorCheck_quiet (fun hn => ?_) hn
  split at hn
  · split at hn
    · exact Except.ok.inj hn ▸ .failed c _
    · exact sendTurn_quiet hn
  · exact sendWrite_quiet hn

theorem connectTurn_listenQuiet : ListenQuiet c (connectTurn recent c late) := by
  unfold connectTurn
  split
  · split
    · exact .failed c _
    · exact .waits c _
  · split
    · exact .ends c rfl
    · exact .failed c _

/-- A method behind `lwip_socket_check_connected`. -/
theorem checkConnected_quiet {rest : Except SockFault Conn} (hrest : rest = .ok c' → ListenQuiet c c')
    (hn : checkConnected recent c rest = .ok c') : ListenQuiet c c' := by
  unfold checkConnected at hn
  split at hn
  · exact Except.ok.inj hn ▸ ⟨rfl, id, id, _, rfl, rfl⟩
  · exact hrest hn

theorem bind_quiet {err : Int} (hn : lwipSocketBind recent c err = .ok c') : ListenQuiet c c' := by
  unfold lwipSocketBind at hn
  split at hn
  · cases hn
  · split at hn
    · exact Except.ok.inj hn ▸ .failed c _
    · exact Except.ok.inj hn ▸ .ends c rfl

theorem listen_quiet (c : Conn) (ok : Bool) : ListenQuiet c (lwipSocketListen c ok) := by
  unfold lwipSocketListen
  split
  · exact .failed c _
  · rename_i hpcb
    split
    · exact .failed c _
    · exact ⟨rfl, fun _ => Option.isSome_iff_ne_none.2 hpcb, fun _ => rfl, _, rfl, rfl⟩

theorem ListenInv.accept (h : ListenInv c l) (hn : lwipSocketAccept c late = .ok c') :
    ListenInv c' (l ++ listenNote c (.accept late)) := by
  unfold lwipSocketAccept at hn
  rw [listenNote]
  cases hpcb : c.socket.pcb with
  | none =>
      simp only [hpcb] at hn
      rw [if_neg (by simp), List.append_nil]
      exact Except.ok.inj hn ▸ h.quiet (.failed c _)
  | some pcb =>
      simp only [hpcb] at hn
      cases pcb with
      | mk listen =>
          cases listen with
          | false =>
              rw [if_neg (by decide), List.append_nil]
              exact Except.ok.inj hn ▸ h.quiet (.failed c _)
          | true =>
              rw [if_pos rfl]
              exact h.acceptTurn hn

theorem ListenInv.turn (h : ListenInv c l) {env : SendEnv} (hn : sockTurn recent c env = .ok c') :
    ListenInv c' (l ++ listenNote c (.turn env)) := by
  unfold sockTurn at hn
  rw [listenNote]
  cases hf : c.frames with
  | nil =>
      simp only [hf] at hn
      rw [if_neg (by simp), List.append_nil]
      exact Except.ok.inj hn ▸ h
  | cons f frames =>
      simp only [hf] at hn
      have hpop : ListenInv { c with frames := frames } l :=
        h.quiet ⟨rfl, id, id, [], (List.append_nil _).symm, rfl⟩
      cases f with
      | accept =>
          rw [if_pos List.head?_cons]
          exact hpop.acceptTurn hn
      | receive len =>
          rw [if_neg (by simp), List.append_nil]
          exact hpop.quiet (receiveTurn_quiet hpop.packet hn)
      | send len =>
          rw [if_neg (by simp), List.append_nil]
          exact hpop.quiet (sendTurn_quiet hn)
      | connect =>
          rw [if_neg (by simp), List.append_nil]
          exact Except.ok.inj hn ▸ hpop.quiet connectTurn_listenQuiet

theorem ListenInv.step (h : ListenInv c l) {e : SockEvent} (hs : (sockets recent).Step c e c')
    (he : ListenEvent e) : ListenInv c' (l ++ listenNote c e) := by
  rcases hs with ⟨hen, hn⟩
  have hn : sockNext recent c e = .ok c' := hn
  -- a step without a note is a quiet one
  have hquiet : listenNote c e = [] → ListenQuiet c c' → ListenInv c' (l ++ listenNote c e) := by
    intro hnote hq
    rw [hnote, List.append_nil]
    exact h.quiet hq
  cases e with
  | recvCb p => exact absurd (h.recv.symm.trans hen.1) Bool.noConfusion
  | acceptCb newpcb => exact Except.ok.inj hn ▸ h.offered newpcb
  | accept late => exact h.accept hn
  | close ok => exact h.close hn
  | turn env => exact h.turn hn
  | connect err late => exact he.elim
  | connectedCb => exact hquiet rfl (Except.ok.inj hn ▸ ⟨rfl, id, id, [], (List.append_nil _).symm, rfl⟩)
  | errCb err =>
      exact hquiet rfl (Except.ok.inj hn ▸
        ⟨rfl, by simp [lwipTcpError], fun _ => rfl, [], (List.append_nil _).symm, rfl⟩)
  | free => exact hquiet rfl (Except.ok.inj hn ▸ ⟨rfl, id, fun _ => rfl, [], (List.append_nil _).symm, rfl⟩)
  | bind err => exact hquiet rfl (bind_quiet hn)
  | listen ok => exact hquiet rfl (Except.ok.inj hn ▸ listen_quiet c ok)
  | send len available env => exact hquiet rfl (checkConnected_quiet lwipTcpSend_quiet hn)
  | write len available env => exact hquiet rfl (lwipTcpSend_quiet hn)
  | recv len late => exact hquiet rfl (checkConnected_quiet (lwipTcpReceive_quiet h.packet) hn)
  | read len late => exact hquiet rfl (lwipTcpReceive_quiet h.packet hn)
  | settimeout timeout => exact hquiet rfl (Except.ok.inj hn ▸ ⟨rfl, id, id, _, rfl, rfl⟩)

end Step

theorem listenInv_makeNew : ListenInv lwipSocketMakeNew [] :=
  ⟨.nil, rfl, .nil, .slnil, Nat.le_refl 1, rfl, by simp [lwipSocketMakeNew]⟩

/-- The notes of a run of a new socket. -/
def listenNotes (recent : Bool) (es : List SockEvent) : List ListenNote :=
  (sockets recent).trace listenNote lwipSocketMakeNew es

/-- The connections leave the socket as they came. -/
structure HandsOut (c : Conn) (notes : List ListenNote) : Prop where
  /-- those that were kept leave in order, each once, up to the one that is held -/
  queue : keptConns notes = takenConns notes ++ (connOf c.socket).toList
  /-- they are returned, in this order, but for those that are aborted -/
  handed : (takenConns notes).Perm (socketsOf c.log ++ abortedConns notes)
  order : (socketsOf c.log).Sublist (takenConns notes)
  once : (abortedConns notes).length ≤ 1
  /-- a connection is refused only while another is held -/
  refused : ∀ l pcb l', notes = l ++ .offered pcb errBuf :: l' →
    (keptConns l).length = (takenConns l).length + 1
  /-- a call gives up only while none is -/
  expired : ∀ l l', notes = l ++ .expired :: l' → (keptConns l).length = (takenConns l).length

/-- In every run of a socket that is never connected, its connections leave it as they came. Their order of
arrival is the order in which they are handed out, each once; all that were kept were handed out or aborted
but the one that is held; one is refused only while another is held, and an `accept` gives up only while
none is. -/
theorem listener_queue {recent : Bool} {c : Conn} {es : List SockEvent}
    (hrun : ((sockets recent).restrict fun _ e => ListenEvent e).Run lwipSocketMakeNew es c) :
    HandsOut c (listenNotes recent es) := by
  have h := hrun.trace_invariant (I := ListenInv) (fun s e t l hs hstep => by
    rcases Machine.restrict_step.1 hstep with ⟨hstep, he⟩
    exact hs.step hstep he) listenInv_makeNew
  rw [List.nil_append, Machine.trace_restrict] at h
  refine ⟨h.queue, h.handed, h.order, Nat.le_of_add_right_le h.once, ?_, ?_⟩
  · intro l pcb l' hnotes
    have hlegal := h.legal
    have hmap : (listenNotes recent es).map ListenNote.act =
        l.map ListenNote.act ++ .drop pcb :: l'.map ListenNote.act := by
      rw [hnotes, List.map_append]
      rfl
    rw [← listenNotes, hmap] at hlegal
    have hat : (keptConns l).length = Mailbox.takes (l.map ListenNote.act) + 1 := hlegal.at_act
    rw [hat, takes_act]
  · intro l l' hnotes
    have hlegal := h.legal
    have hmap : (listenNotes recent es).map ListenNote.act =
        l.map ListenNote.act ++ .miss :: l'.map ListenNote.act := by
      rw [hnotes, List.map_append]
      rfl
    rw [← listenNotes, hmap] at hlegal
    have hat : (keptConns l).length = Mailbox.takes (l.map ListenNote.act) + 0 := hlegal.at_act
    rw [hat, takes_act, Nat.add_zero]

/-- Three connections: the first goes to a call that waits, the second is refused, a close aborts the third. -/
def threeConns : List SockEvent :=
  [.bind 0, .listen true, .accept false, .acceptCb 1, .acceptCb 2, .turn ⟨0, 0, false⟩, .acceptCb 3, .close true]

theorem listener_queue_three : ∃ c, socketsOf c.log = [1] ∧ keptConns (listenNotes true threeConns) = [1, 3] ∧
    HandsOut c (listenNotes true threeConns) := by
  have hexec : ((sockets true).exec lwipSocketMakeNew threeConns).any (fun c => socketsOf c.log = [1]) = true := by
    decide
  rcases Machine.Run.of_exec_any hexec with ⟨c, hrun, hc⟩
  refine ⟨c, of_decide_eq_true hc, by decide, listener_queue (hrun.restrict ?_)⟩
  simp [threeConns, ListenEvent]

end Minipython.Mods
