/-
# Minipython.Mods.Datagram — datagram sockets over lwIP (modlwip.c)

A socket of the type `SOCK_DGRAM` keeps one datagram with its sender. `_lwip_udp_incoming` drops what
arrives while one is kept, and `lwip_udp_receive` hands out the one that is there. As for streams, a method
that waits is a frame, and callbacks and other methods follow each other in any order in between.

`received_datagrams` is what a program sees: the socket is a mailbox for one message.

What happens is noted in a log as it happens: an arrival, a datagram that was kept or dropped, one that a
reader took with the bytes and the sender it got, a wait that ran out, a packet that was freed. `actsOf`
reads the log as the history of a mailbox, and the other readers in this section pick out what the result
speaks about.
-/
import Mathlib.Data.List.Forall2
import Minipython.Lib.Mailbox
import Minipython.Mods.Socket

namespace Minipython.Mods

open Minipython.Lib

/-! ## Datagram sockets -/

/-- A sender, as `peer` and `peer_port` hold it. -/
structure Peer where
  peer : List UInt8
  peerPort : Nat
  deriving DecidableEq, Repr

/-- What `_lwip_udp_incoming` is called with. -/
structure Datagram where
  payload : List UInt8
  src : Peer
  deriving DecidableEq, Repr

/-- `lwip_socket_obj_t` of the type `SOCK_DGRAM`; `pcb` tells that the control block is not null. -/
structure DgramSocket where
  pcb : Bool
  incoming : Option (List UInt8)
  peer : Peer
  timeout : Option Nat
  state : Int
  deriving DecidableEq, Repr

/-- What a method returns or raises. -/
inductive DgramOutcome where
  | none
  | data (l : List UInt8) (src : Option Peer)
  | sent (n : Nat)
  | failed (e : Option SockErrno)
  /-- `EOPNOTSUPP` -/
  | unsupported
  /-- `mp_not_implemented` -/
  | notImplemented
  deriving DecidableEq, Repr

/-- What happens at the border of a datagram socket. -/
inductive DgramEffect where
  /-- `_lwip_udp_incoming` keeps the packet -/
  | kept (d : Datagram)
  | dropped (d : Datagram)
  /-- `lwip_udp_receive` takes the packet, for a buffer of `len` bytes -/
  | received (len : Nat) (data : List UInt8) (src : Option Peer)
  /-- `lwip_socket_close` takes the packet -/
  | discarded (payload : List UInt8)
  /-- `lwip_udp_receive` gives up -/
  | expired
  /-- `pbuf_free` of a packet from lwIP -/
  | freed (payload : List UInt8)
  /-- `udp_send`, or `udp_sendto` -/
  | sends (data : List UInt8) (dest : Option Peer)
  | returns (o : DgramOutcome)
  deriving DecidableEq, Repr

/-- A waiting `lwip_udp_receive`, with the delays that are left to it. -/
structure DgramFrame where
  len : Nat
  src : Bool
  retries : Option Nat
  deriving DecidableEq, Repr

/-- A datagram socket with the methods that wait, the innermost first, and its past. -/
structure DgramConn where
  socket : DgramSocket
  frames : List DgramFrame
  log : List DgramEffect
  deriving DecidableEq, Repr

namespace DgramConn

/-- Add to the past. -/
def emit (c : DgramConn) (effects : List DgramEffect) : DgramConn := { c with log := c.log ++ effects }

/-- The method is over. -/
def ends (c : DgramConn) (o : DgramOutcome) : DgramConn := c.emit [.returns o]

end DgramConn

/-- `_lwip_udp_incoming`. -/
def lwipUdpIncoming (c : DgramConn) (d : Datagram) : DgramConn :=
  if c.socket.incoming ≠ none then c.emit [.dropped d, .freed d.payload]
  else { c with socket := { c.socket with incoming := some d.payload, peer := d.src } }.emit [.kept d]

/-! ## Receiving -/

/-- `lwip_udp_receive` behind its wait, with the packet `p`. -/
def udpReceiveData (c : DgramConn) (p : List UInt8) (len : Nat) (src : Bool) : DgramConn :=
  let src := if src then some c.socket.peer else none
  let result := pbufCopyPartial p (toU16 (if len < p.length then len else p.length)) 0
  { c with socket := { c.socket with incoming := none } }.emit
    [.received len result src, .freed p, .returns (.data result src)]

/-- A turn of one of the loops of `lwip_udp_receive`, and the rest of it if that was the last one. -/
def udpReceiveTurn (c : DgramConn) (f : DgramFrame) : DgramConn :=
  match c.socket.incoming, f.retries with
  | some p, _ => udpReceiveData c p f.len f.src
  | none, some 0 => c.emit [.expired, .returns (.failed (some .etimedout))]
  | none, some (k + 1) => { c with frames := { f with retries := some k } :: c.frames }
  | none, none => { c with frames := f :: c.frames }

/-- `lwip_udp_receive`. -/
def lwipUdpReceive (c : DgramConn) (len : Nat) (src : Bool) : DgramConn :=
  udpReceiveTurn c ⟨len, src, c.socket.timeout.map fun t => t / 100⟩

section Methods

variable (recent : Bool)

/-! ## Sending -/

/-- What `pbuf_alloc` and `udp_send` answer. -/
structure UdpEnv where
  allocs : Bool
  err : Int
  deriving DecidableEq, Repr

/-- `lwip_udp_send`; `udp_send` reads the control block. -/
def lwipUdpSend (c : DgramConn) (buf : List UInt8) (dest : Option Peer) (env : UdpEnv) :
    Except SockFault DgramConn :=
  let len := if 0xffff < buf.length then 0xffff else buf.length
  if env.allocs = false then .ok (c.ends (.failed (some .enomem)))
  else if c.socket.pcb = false then .error .null
  else
    let c := c.emit [.sends (buf.take len) dest]
    -- the 1 is taken for a success
    if env.err ≠ errOk ∧ env.err ≠ 1 then .ok (c.ends (.failed (errorLookup recent (-env.err))))
    else .ok (c.ends (.sent len))

/-! ## The methods -/

/-- `lwip_socket_check_connected` in front of the rest of a method. -/
def dgramCheckConnected (c : DgramConn) (rest : Except SockFault DgramConn) : Except SockFault DgramConn :=
  if c.socket.pcb = false then
    .ok ({ c with socket := { c.socket with state := errBadf } }.ends
      (.failed (errorLookup recent (-c.socket.state))))
  else rest

/-- `lwip_socket_bind`, with the result of `udp_bind`, which reads the control block. -/
def dgramBind (c : DgramConn) (err : Int) : Except SockFault DgramConn :=
  if c.socket.pcb = false then .error .null
  else if err ≠ errOk then .ok (c.ends (.failed (errorLookup recent (-err))))
  else .ok (c.ends .none)

/-- `lwip_socket_listen` and `lwip_socket_accept`. -/
def dgramListen (c : DgramConn) : DgramConn :=
  if c.socket.pcb = false then c.ends (.failed (some .ebadf)) else c.ends .unsupported

/-- `lwip_socket_connect`, with the result of `udp_connect`. -/
def dgramConnect (c : DgramConn) (err : Int) : DgramConn :=
  if c.socket.pcb = false then c.ends (.failed (some .ebadf))
  else if err ≠ errOk then c.ends (.failed (errorLookup recent (-err)))
  else c.ends .none

/-- `lwip_socket_close`. -/
def dgramClose (c : DgramConn) : DgramConn :=
  if c.socket.pcb = false then c.ends .none
  else
    let s := { c.socket with pcb := false, state := errBadf }
    match c.socket.incoming with
    | some p => ({ c with socket := { s with incoming := none } }.emit [.discarded p, .freed p]).ends .none
    | none => { c with socket := s }.ends .none

/-! ## The machine -/

/-- A callback of lwIP, a method, or a turn of a waiting one. -/
inductive DgramEvent where
  | incoming (d : Datagram)
  | bind (err : Int)
  | listen
  | accept
  | connect (err : Int)
  | send (buf : List UInt8) (env : UdpEnv)
  | sendto (buf : List UInt8) (dest : Peer) (env : UdpEnv)
  | write (buf : List UInt8) (env : UdpEnv)
  | recv (len : Nat)
  | recvfrom (len : Nat)
  | read (len : Nat)
  | sendall
  | settimeout (timeout : Option Nat)
  | close
  | turn
  deriving DecidableEq, Repr

/-- `udp_recv` registered the callback, and `udp_remove` takes it back. -/
def dgramEnabled (c : DgramConn) : DgramEvent → Prop
  | .incoming d => c.socket.pcb = true ∧ d.payload.length ≤ 65535
  | .turn => c.frames ≠ []
  | _ => True

/-- A turn of the innermost method. -/
def dgramTurn (c : DgramConn) : DgramConn :=
  match c.frames with
  | [] => c
  | f :: frames => udpReceiveTurn { c with frames := frames } f

def dgramNext (c : DgramConn) : DgramEvent → Except SockFault DgramConn
  | .incoming d => .ok (lwipUdpIncoming c d)
  | .bind err => dgramBind recent c err
  | .listen | .accept => .ok (dgramListen c)
  | .connect err => .ok (dgramConnect recent c err)
  | .send buf env => dgramCheckConnected recent c (lwipUdpSend recent c buf none env)
  | .sendto buf dest env => dgramCheckConnected recent c (lwipUdpSend recent c buf (some dest) env)
  | .write buf env => lwipUdpSend recent c buf none env
  | .recv len => dgramCheckConnected recent c (.ok (lwipUdpReceive c len false))
  | .recvfrom len => dgramCheckConnected recent c (.ok (lwipUdpReceive c len true))
  | .read len => .ok (lwipUdpReceive c len false)
  | .sendall => dgramCheckConnected recent c (.ok (c.ends .notImplemented))
  | .settimeout timeout => .ok ({ c with socket := { c.socket with timeout := timeout } }.ends .none)
  | .close => .ok (dgramClose c)
  | .turn => .ok (dgramTurn c)

/-- A datagram socket under its callers and lwIP. -/
def datagrams : Machine DgramConn DgramEvent SockFault := ⟨dgramEnabled, dgramNext recent⟩

end Methods

/-- The socket of `lwip_socket_make_new`. `peer` is not set before a datagram is kept. -/
def dgramMakeNew (peer : Peer) : DgramConn := ⟨⟨true, none, peer, none, stateNew⟩, [], []⟩

instance (recent : Bool) (c : DgramConn) (e : DgramEvent) : Decidable ((datagrams recent).Enabled c e) :=
  match e with
  | .incoming d => inferInstanceAs (Decidable (c.socket.pcb = true ∧ d.payload.length ≤ 65535))
  | .turn => inferInstanceAs (Decidable (c.frames ≠ []))
  | .bind _ | .listen | .accept | .connect _ | .send _ _ | .sendto _ _ _ | .write _ _ | .recv _ | .recvfrom _
  | .read _ | .sendall | .settimeout _ | .close => inferInstanceAs (Decidable True)

/-! ## The past of a socket -/

/-- What an effect is to the mailbox. -/
def DgramEffect.act : DgramEffect → Option (Mailbox.Act Datagram)
  | .kept d => some (.put d)
  | .dropped d => some (.drop d)
  | .received _ _ _ | .discarded _ => some .take
  | .expired => some .miss
  | .freed _ | .sends _ _ | .returns _ => none

/-- An effect that takes a datagram. -/
def DgramEffect.takes : DgramEffect → Bool
  | .received _ _ _ | .discarded _ => true
  | _ => false

def DgramEffect.arrives : DgramEffect → Option (List UInt8)
  | .kept d | .dropped d => some d.payload
  | _ => none

def DgramEffect.frees : DgramEffect → Option (List UInt8)
  | .freed p => some p
  | _ => none

/-- The history of the mailbox. -/
def actsOf (log : List DgramEffect) : List (Mailbox.Act Datagram) := log.filterMap DgramEffect.act

/-- The effects that take a datagram, in order. -/
def takenOf (log : List DgramEffect) : List DgramEffect := log.filter DgramEffect.takes

/-- The datagrams that were kept, in order. -/
def keptOf (log : List DgramEffect) : List Datagram := Mailbox.puts (actsOf log)

/-- The packets that lwIP handed over, in order. -/
def arrivedOf (log : List DgramEffect) : List (List UInt8) := log.filterMap DgramEffect.arrives

/-- The packets that were freed, in order. -/
def dgramFreedOf (log : List DgramEffect) : List (List UInt8) := log.filterMap DgramEffect.frees

/-- The datagram in the socket. -/
def DgramSocket.held (s : DgramSocket) : Option Datagram := s.incoming.map fun p => ⟨p, s.peer⟩

/-- The effect takes this datagram: its start as far as there is room, and its sender if asked for. -/
inductive Delivers (d : Datagram) : DgramEffect → Prop where
  | received (len : Nat) (src : Bool) :
      Delivers d (.received len (d.payload.take len) (if src then some d.src else none))
  | discarded : Delivers d (.discarded d.payload)

end Minipython.Mods
