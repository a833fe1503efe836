/-
# Minipython.Mods.Socket — stream sockets over lwIP (modlwip.c, modlwip.h)

A socket is written by its methods and by the callbacks that lwIP makes. A method that waits polls the
network, so callbacks run in the middle of it, and a callback may run user code that calls methods again.
The machine `sockets` takes all of that as single events: a method runs up to its wait, callbacks and other
methods follow, and a `turn` is one more turn of the loop in which the innermost method waits.

lwIP may make a callback from its registration until it frees the control block; `tcp_close` clears none of
them. What its calls answer is part of the event.

Numbers of lwIP's state and error codes are as in its headers and in `modlwip.c`; `error_lookup_table`
depends on the version of lwIP, which is a parameter (`recent`). An index outside the table has no value,
and a failing assert or an access through a null pointer is a fault. The effects of a step are noted in a
log, which the program cannot see.
-/
import Mathlib.Algebra.GroupWithZero.Nat
import Minipython.Lib.Machine

namespace Minipython.Mods

open Minipython.Lib

/-! ## Sockets -/

/-- `struct tcp_pcb`, as far as a socket looks at it: it listens or not. -/
structure TcpPcb where
  listen : Bool
  deriving DecidableEq, Repr

/-- The `incoming` union, which is null for both of its readings at once. -/
inductive Incoming where
  | null
  /-- a packet, of which the payload is `tot_len` bytes long -/
  | pbuf (payload : List UInt8)
  | connection (pcb : Nat)
  deriving DecidableEq, Repr

def stateNew : Int := 0
def stateConnecting : Int := 1
def stateConnected : Int := 2
def statePeerClosed : Int := 3

/-- `_ERR_BADF`. -/
def errBadf : Int := -16

/-- `lwip_socket_obj_t` of the type `SOCK_STREAM`. The timeout -1, which waits for ever, is `none`. -/
structure Socket where
  pcb : Option TcpPcb
  incoming : Incoming
  timeout : Option Nat
  leftoverCount : Nat
  state : Int
  deriving DecidableEq, Repr

/-- The codes in `error_lookup_table`. -/
inductive SockErrno where
  | ok
  | enomem
  | enobufs
  | ewouldblock
  | ehostunreach
  | einprogress
  | einval
  | eaddrinuse
  | ealready
  | econnaborted
  | econnreset
  | enotconn
  | eio
  | minusOne
  | ebadf
  | eagain
  | etimedout
  deriving DecidableEq, Repr

/-- `error_lookup_table`, for lwIP from 1.4.1 on or before. -/
def errorLookupTable (recent : Bool) : List SockErrno :=
  ([.ok, .enomem, .enobufs, .ewouldblock, .ehostunreach, .einprogress, .einval, .ewouldblock] :
      List SockErrno) ++
    (if recent then [.eaddrinuse, .ealready, .econnaborted, .econnreset, .enotconn, .enotconn, .eio, .minusOne]
      else [.econnaborted, .econnreset, .enotconn, .enotconn, .eio, .eaddrinuse, .minusOne, .ealready] :
      List SockErrno) ++ ([.ebadf] : List SockErrno)

/-- `error_lookup_table[i]`; outside the table there is no code. -/
def errorLookup (recent : Bool) (i : Int) : Option SockErrno :=
  if i < 0 then none else (errorLookupTable recent)[i.toNat]?

/-- How a method can go wrong for good. -/
inductive SockFault where
  | assert
  /-- something else than a packet is read through `incoming.pbuf` -/
  | pbufMisread
  /-- something else than a connection is read through `incoming.connection` -/
  | connMisread
  | null
  deriving DecidableEq, Repr

/-- What a method returns or raises. -/
inductive Outcome where
  | none
  | bytes (l : List UInt8)
  | sent (n : Nat)
  | socket (pcb : Nat)
  | failed (e : Option SockErrno)
  deriving DecidableEq, Repr

/-- What happens at the border of a socket. -/
inductive Effect where
  /-- `_lwip_tcp_recv` keeps the packet -/
  | accepted (payload : List UInt8)
  /-- `pbuf_copy_partial` -/
  | copied (l : List UInt8)
  /-- `pbuf_free` -/
  | freed (payload : List UInt8)
  | tcpRecved (n : Nat)
  | returns (o : Outcome)
  deriving DecidableEq, Repr

/-- The callbacks that are registered on a control block that lwIP has not freed. -/
structure Callbacks where
  recv : Bool
  connected : Bool
  err : Bool
  accept : Bool
  deriving DecidableEq, Repr

/-- No callbacks. -/
def Callbacks.off : Callbacks := ⟨false, false, false, false⟩

/-- A method that waits. -/
inductive Frame where
  | receive (len : Nat)
  | send (len : Nat)
  | accept
  | connect
  deriving DecidableEq, Repr

/-- A socket with what lwIP knows of it, the methods that wait, the innermost first, and its past. -/
structure Conn where
  socket : Socket
  callbacks : Callbacks
  frames : List Frame
  log : List Effect
  deriving DecidableEq, Repr

namespace Conn

/-- Add to the past. -/
def emit (c : Conn) (effects : List Effect) : Conn := { c with log := c.log ++ effects }

/-- The method is over. -/
def ends (c : Conn) (o : Outcome) : Conn := c.emit [.returns o]

/-- The method waits. -/
def waits (c : Conn) (f : Frame) : Conn := { c with frames := f :: c.frames }

end Conn

/-! ## Callbacks -/

/-- `ERR_OK` and `ERR_BUF`. -/
def errOk : Int := 0
def errBuf : Int := -2

/-- `_lwip_tcp_error`; the control block is gone. -/
def lwipTcpError (c : Conn) (err : Int) : Conn :=
  { c with socket := { c.socket with state := err, pcb := none }, callbacks := .off }

/-- `_lwip_tcp_connected`. -/
def lwipTcpConnected (c : Conn) : Conn := { c with socket := { c.socket with state := stateConnected } }

/-- `_lwip_tcp_accept`. -/
def lwipTcpAccept (c : Conn) (newpcb : Nat) : Int × Conn :=
  if c.socket.incoming ≠ .null then (errBuf, c)
  else (errOk, { c with socket := { c.socket with incoming := .connection newpcb } })

/-- `_lwip_tcp_recv`. -/
def lwipTcpRecv (c : Conn) (p : Option (List UInt8)) : Int × Conn :=
  match p with
  | none => (errOk, { c with socket := { c.socket with state := statePeerClosed } })
  | some payload =>
      if c.socket.incoming ≠ .null then (errBuf, c)
      else
        (errOk, { c with socket := { c.socket with incoming := .pbuf payload } }.emit [.accepted payload])

/-! ## Receiving -/

/-- The value of a 16-bit parameter. -/
def toU16 (n : Nat) : Nat := n % 2 ^ 16

/-- `pbuf_copy_partial`. -/
def pbufCopyPartial (payload : List UInt8) (len offset : Nat) : List UInt8 := (payload.drop offset).take len

/-- `lwip_tcp_receive` behind its wait. -/
def receiveData (c : Conn) (len : Nat) : Except SockFault Conn :=
  if c.socket.pcb = none then .error .assert
  else
    match c.socket.incoming with
    | .null => .error .null
    | .connection _ => .error .pbufMisread
    | .pbuf p =>
        let leftover := if c.socket.leftoverCount = 0 then p.length else c.socket.leftoverCount
        let result := pbufCopyPartial p (toU16 (if len ≤ leftover then len else leftover))
          (toU16 (p.length - leftover))
        if len < leftover then
          -- more left over
          .ok ({ c with socket := { c.socket with leftoverCount := leftover - len } }.emit
            [.copied result, .tcpRecved result.length, .returns (.bytes result)])
        else
          .ok ({ c with socket := { c.socket with incoming := .null, leftoverCount := 0 } }.emit
            [.copied result, .freed p, .tcpRecved result.length, .returns (.bytes result)])

section Methods

variable (recent : Bool)

/-- The lookup for the state of a socket. -/
def stateErrno (s : Socket) : Option SockErrno := errorLookup recent (-s.state)

/-- A turn of the loop of `lwip_tcp_receive`, and the rest of it if that was the last one. -/
def receiveTurn (c : Conn) (len : Nat) (late : Bool) : Except SockFault Conn :=
  if c.socket.state = stateConnected ∧ c.socket.incoming = .null then
    if c.socket.timeout ≠ none ∧ late then .ok (c.ends (.failed (some .etimedout)))
    else .ok (c.waits (.receive len))
  else if c.socket.state = statePeerClosed then
    if c.socket.incoming = .null then .ok (c.ends (.bytes []))
    else receiveData c len
  else if c.socket.state ≠ stateConnected then
    if c.socket.state < 0 then .ok (c.ends (.failed (stateErrno recent c.socket)))
    else .error .assert
  else receiveData c len

/-- `STREAM_ERROR_CHECK` in front of the rest of a function. -/
def streamErrorCheck (c : Conn) (rest : Except SockFault Conn) : Except SockFault Conn :=
  if c.socket.state < 0 then .ok (c.ends (.failed (stateErrno recent c.socket)))
  else if c.socket.pcb = none then .error .assert
  else rest

/-- `lwip_tcp_receive`. -/
def lwipTcpReceive (c : Conn) (len : Nat) (late : Bool) : Except SockFault Conn :=
  streamErrorCheck recent c <|
    if c.socket.incoming = .null then
      if c.socket.timeout = some 0 then
        if c.socket.state = statePeerClosed then .ok (c.ends (.bytes []))
        else .ok (c.ends (.failed (some .eagain)))
      else receiveTurn recent c len late
    else receiveData c len

/-! ## Sending -/

/-- What lwIP answers to a turn of `lwip_tcp_send`: the room in its buffer, and the result of `tcp_write`. -/
structure SendEnv where
  available : Nat
  err : Int
  late : Bool
  deriving DecidableEq, Repr

/-- The end of `lwip_tcp_send`. -/
def sendWrite (c : Conn) (len available : Nat) (err : Int) : Except SockFault Conn :=
  if err ≠ errOk then .ok (c.ends (.failed (errorLookup recent (-err))))
  else .ok (c.ends (.sent (min available len)))

/-- A turn of the loop of `lwip_tcp_send`, and the rest of it if that was the last one. `tcp_sndbuf` reads
the control block. -/
def sendTurn (c : Conn) (len : Nat) (env : SendEnv) : Except SockFault Conn :=
  if stateConnected ≤ c.socket.state then
    if c.socket.pcb = none then .error .null
    else if env.available < 16 then
      if c.socket.timeout ≠ none ∧ env.late then .ok (c.ends (.failed (some .etimedout)))
      else .ok (c.waits (.send len))
    else streamErrorCheck recent c (sendWrite recent c len env.available env.err)
  else streamErrorCheck recent c (sendWrite recent c len 0 env.err)

/-- `lwip_tcp_send`, where `available` is the first room in the buffer. -/
def lwipTcpSend (c : Conn) (len available : Nat) (env : SendEnv) : Except SockFault Conn :=
  streamErrorCheck recent c <|
    if available = 0 then
      if c.socket.timeout = some 0 then .ok (c.ends (.failed (some .eagain)))
      else sendTurn recent c len env
    else sendWrite recent c len available env.err

/-! ## The methods -/

/-- `lwip_socket_check_connected` in front of the rest of a method. -/
def checkConnected (c : Conn) (rest : Except SockFault Conn) : Except SockFault Conn :=
  if c.socket.pcb = none then
    .ok ({ c with socket := { c.socket with state := errBadf } }.ends
      (.failed (stateErrno recent c.socket)))
  else rest

/-- `lwip_socket_bind`, with the result of `tcp_bind`, which reads the control block. -/
def lwipSocketBind (c : Conn) (err : Int) : Except SockFault Conn :=
  if c.socket.pcb = none then .error .null
  else if err ≠ errOk then .ok (c.ends (.failed (errorLookup recent (-err))))
  else .ok (c.ends .none)

/-- `lwip_socket_listen`: lwIP frees the control block and makes a new one, which only accepts. -/
def lwipSocketListen (c : Conn) (ok : Bool) : Conn :=
  if c.socket.pcb = none then c.ends (.failed (some .ebadf))
  else if !ok then c.ends (.failed (some .enomem))
  else
    { c with
      socket := { c.socket with pcb := some ⟨true⟩ }
      callbacks := { Callbacks.off with accept := true } }.ends .none

/-- The wait of `lwip_socket_accept`, and the rest of it. -/
def acceptTurn (c : Conn) (late : Bool) : Except SockFault Conn :=
  match c.socket.incoming with
  | .null =>
      if c.socket.timeout ≠ none ∧ late then .ok (c.ends (.failed (some .etimedout)))
      else .ok (c.waits .accept)
  | .pbuf _ => .error .connMisread
  | .connection pcb => .ok ({ c with socket := { c.socket with incoming := .null } }.ends (.socket pcb))

/-- `lwip_socket_accept`. -/
def lwipSocketAccept (c : Conn) (late : Bool) : Except SockFault Conn :=
  match c.socket.pcb with
  | none => .ok (c.ends (.failed (some .ebadf)))
  | some pcb => if pcb.listen = false then .ok (c.ends (.failed (some .einval))) else acceptTurn c late

/-- The wait of `lwip_socket_connect`, and the rest of it. -/
def connectTurn (c : Conn) (late : Bool) : Conn :=
  if c.socket.state = stateConnecting then
    if c.socket.timeout ≠ none ∧ late then c.ends (.failed (some .etimedout))
    else c.waits .connect
  else if c.socket.state = stateConnected then c.ends .none
  else c.ends (.failed (stateErrno recent c.socket))

/-- `lwip_socket_connect`, with the result of `tcp_connect`. -/
def lwipSocketConnect (c : Conn) (err : Int) (late : Bool) : Conn :=
  if c.socket.pcb = none then c.ends (.failed (some .ebadf))
  else if c.socket.state ≠ stateNew then
    c.ends (.failed (some (if c.socket.state = stateConnected then .ealready else .einprogress)))
  else
    let c := { c with callbacks := { c.callbacks with recv := true, connected := true } }
    if err ≠ errOk then c.ends (.failed (errorLookup recent (-err)))
    else connectTurn recent { c with socket := { c.socket with state := stateConnecting } } late

/-- `lwip_socket_close`, with the result of `tcp_close`; after a failure `tcp_abort` frees the control
block. -/
def lwipSocketClose (c : Conn) (ok : Bool) : Except SockFault Conn :=
  match c.socket.pcb with
  | none => .ok (c.ends .none)
  | some pcb =>
      let c := { c with
        socket := { c.socket with pcb := none, state := errBadf }
        callbacks := if ok then c.callbacks else .off }
      match c.socket.incoming, pcb.listen with
      | .null, _ => .ok (c.ends .none)
      | .pbuf p, false =>
          .ok (({ c with socket := { c.socket with incoming := .null } }.emit [.freed p]).ends .none)
      | .connection _, true => .ok ({ c with socket := { c.socket with incoming := .null } }.ends .none)
      | .connection _, false => .error .pbufMisread
      | .pbuf _, true => .error .connMisread

/-! ## The machine -/

/-- A callback of lwIP, a method, or a turn of a waiting one. -/
inductive SockEvent where
  | recvCb (p : Option (List UInt8))
  | connectedCb
  | errCb (err : Int)
  | acceptCb (newpcb : Nat)
  /-- lwIP frees the control block of a closed socket -/
  | free
  | bind (err : Int)
  | listen (ok : Bool)
  | accept (late : Bool)
  | connect (err : Int) (late : Bool)
  | send (len available : Nat) (env : SendEnv)
  | write (len available : Nat) (env : SendEnv)
  | recv (len : Nat) (late : Bool)
  | read (len : Nat) (late : Bool)
  | settimeout (timeout : Option Nat)
  | close (ok : Bool)
  | turn (env : SendEnv)
  deriving DecidableEq, Repr

/-- lwIP makes callbacks that are registered, with packets of 1 to 65535 bytes and its own error codes. -/
def sockEnabled (c : Conn) : SockEvent → Prop
  | .recvCb p => c.callbacks.recv = true ∧ ∀ payload ∈ p, 0 < payload.length ∧ payload.length ≤ 65535
  | .connectedCb => c.callbacks.connected = true
  | .errCb err => c.callbacks.err = true ∧ -15 ≤ err ∧ err < 0
  | .acceptCb _ => c.callbacks.accept = true
  | .free => c.socket.pcb = none
  | .turn _ => c.frames ≠ []
  | _ => True

/-- A turn of the innermost method. -/
def sockTurn (c : Conn) (env : SendEnv) : Except SockFault Conn :=
  match c.frames with
  | [] => .ok c
  | f :: frames =>
      let c := { c with frames := frames }
      match f with
      | .receive len => receiveTurn recent c len env.late
      | .send len => sendTurn recent c len env
      | .accept => acceptTurn c env.late
      | .connect => .ok (connectTurn recent c env.late)

def sockNext (c : Conn) : SockEvent → Except SockFault Conn
  | .recvCb p => .ok (lwipTcpRecv c p).2
  | .connectedCb => .ok (lwipTcpConnected c)
  | .errCb err => .ok (lwipTcpError c err)
  | .acceptCb newpcb => .ok (lwipTcpAccept c newpcb).2
  | .free => .ok { c with callbacks := .off }
  | .bind err => lwipSocketBind recent c err
  | .listen ok => .ok (lwipSocketListen c ok)
  | .accept late => lwipSocketAccept c late
  | .connect err late => .ok (lwipSocketConnect recent c err late)
  | .send len available env => checkConnected recent c (lwipTcpSend recent c len available env)
  | .write len available env => lwipTcpSend recent c len available env
  | .recv len late => checkConnected recent c (lwipTcpReceive recent c len late)
  | .read len late => lwipTcpReceive recent c len late
  | .settimeout timeout => .ok ({ c with socket := { c.socket with timeout := timeout } }.ends .none)
  | .close ok => lwipSocketClose c ok
  | .turn env => sockTurn recent c env

/-- A stream socket under its callers and lwIP. -/
def sockets : Machine Conn SockEvent SockFault := ⟨sockEnabled, sockNext recent⟩

end Methods

/-- The socket of `lwip_socket_make_new`. -/
def lwipSocketMakeNew : Conn :=
  ⟨⟨some ⟨false⟩, .null, none, 0, stateNew⟩, { Callbacks.off with err := true }, [], []⟩

/-- A socket that `lwip_socket_accept` makes; the timeout is that of the listening socket. -/
def lwipSocketAccepted (timeout : Option Nat) : Conn :=
  ⟨⟨some ⟨false⟩, .null, timeout, 0, stateConnected⟩, { Callbacks.off with recv := true, err := true }, [], []⟩

instance (recent : Bool) (c : Conn) (e : SockEvent) : Decidable ((sockets recent).Enabled c e) :=
  match e with
  | .recvCb none => inferInstanceAs (Decidable (c.callbacks.recv = true ∧ ∀ payload ∈ none, _))
  | .recvCb (some p) => inferInstanceAs (Decidable (c.callbacks.recv = true ∧ ∀ payload ∈ some p, _))
  | .connectedCb => inferInstanceAs (Decidable (c.callbacks.connected = true))
  | .errCb err => inferInstanceAs (Decidable (c.callbacks.err = true ∧ -15 ≤ err ∧ err < 0))
  | .acceptCb _ => inferInstanceAs (Decidable (c.callbacks.accept = true))
  | .free => inferInstanceAs (Decidable (c.socket.pcb = none))
  | .turn _ => inferInstanceAs (Decidable (c.frames ≠ []))
  | .bind _ | .listen _ | .accept _ | .connect _ _ | .send _ _ _ | .write _ _ _ | .recv _ _ | .read _ _
  | .settimeout _ | .close _ => inferInstanceAs (Decidable True)

end Minipython.Mods
