/-
# Minipython.Mods.SendAll — the bytes that a stream socket sends (modlwip.c)

`send` and `write` hand one piece of a buffer to lwIP, `sendall` piece after piece until nothing is left. A call
that waits for room polls the network, so other calls, callbacks and a close come in between, also within one
`sendall`. Between two pieces nothing comes in between; such a call is `running`.

`lwip_tcp_send` is the one of Socket, here without the state around it: `lwipTcpSend_eq`.

A call is given a number when it begins and a frame until it ends. lwIP takes what it has room for, so one
piece may be shorter than what is left. `tcpSend_le` says that a turn hands over the first bytes of the rest
and returns how many. `sendall_written` adds this up over any run: what a call has handed over and what it
has left are its buffer, and the pieces of its number in the stream are what it has handed over, in their
order.

Pieces of two calls may alternate in the stream, since the code does not keep a second `sendall` out while
one waits. What lwIP does with the stream, and whether it arrives, is not part of this.
-/
import Minipython.Mods.Socket

namespace Minipython.Mods

open Minipython.Lib

/-! ## One piece -/

/-- How `lwip_tcp_send` goes on. -/
inductive SendStep where
  | waits
  | sent (n : Nat)
  | failed (e : Option SockErrno)
  deriving DecidableEq, Repr

section Piece

variable (recent : Bool)

/-- `STREAM_ERROR_CHECK` in front of the rest of `lwip_tcp_send`. -/
def tcpSendCheck (s : Socket) (rest : Except SockFault SendStep) : Except SockFault SendStep :=
  if s.state < 0 then .ok (.failed (stateErrno recent s))
  else if s.pcb = none then .error .assert
  else rest

/-- The end of `lwip_tcp_send`. -/
def tcpSendWrite (len available : Nat) (err : Int) : Except SockFault SendStep :=
  if err ≠ errOk then .ok (.failed (errorLookup recent (-err))) else .ok (.sent (min available len))

/-- A turn of the loop of `lwip_tcp_send`, and the rest of it if that was the last one. -/
def tcpSendTurn (s : Socket) (len : Nat) (env : SendEnv) : Except SockFault SendStep :=
  if stateConnected ≤ s.state then
    if s.pcb = none then .error .null
    else if env.available < 16 then
      if s.timeout ≠ none ∧ env.late then .ok (.failed (some .etimedout)) else .ok .waits
    else tcpSendCheck recent s (tcpSendWrite recent len env.available env.err)
  else tcpSendCheck recent s (tcpSendWrite recent len 0 env.err)

/-- `lwip_tcp_send`, where `available` is the first room in the buffer. -/
def tcpSend (s : Socket) (len available : Nat) (env : SendEnv) : Except SockFault SendStep :=
  tcpSendCheck recent s <|
    if available = 0 then
      if s.timeout = some 0 then .ok (.failed (some .eagain)) else tcpSendTurn recent s len env
    else tcpSendWrite recent len available env.err

end Piece

/-- What the step means to a socket with its past. -/
def SendStep.apply (c : Conn) (len : Nat) : SendStep → Conn
  | .waits => c.waits (.send len)
  | .sent n => c.ends (.sent n)
  | .failed e => c.ends (.failed e)

section Refinement

variable {recent : Bool} {c : Conn} {len : Nat}

theorem streamErrorCheck_eq {rest : Except SockFault SendStep} :
    streamErrorCheck recent c (rest.map (SendStep.apply c len)) =
      (tcpSendCheck recent c.socket rest).map (SendStep.apply c len) := by
  unfold streamErrorCheck tcpSendCheck
  split
  · rfl
  · split <;> rfl

theorem sendWrite_eq {available : Nat} {err : Int} :
    sendWrite recent c len available err =
      (tcpSendWrite recent len available err).map (SendStep.apply c len) := by
  unfold sendWrite tcpSendWrite
  split <;> rfl

theorem sendTurn_eq {env : SendEnv} :
    sendTurn recent c len env = (tcpSendTurn recent c.socket len env).map (SendStep.apply c len) := by
  unfold sendTurn tcpSendTurn
  rw [sendWrite_eq, sendWrite_eq, streamErrorCheck_eq, streamErrorCheck_eq]
  split
  · split
    · rfl
    · split
      · split <;> rfl
      · rfl
  · rfl

/-- `lwip_tcp_send` of a socket with its past is the one without. -/
theorem lwipTcpSend_eq {available : Nat} {env : SendEnv} :
    lwipTcpSend recent c len available env =
      (tcpSend recent c.socket len available env).map (SendStep.apply c len) := by
  unfold lwipTcpSend tcpSend
  rw [← streamErrorCheck_eq, sendWrite_eq, sendTurn_eq]
  congr 1
  split
  · split <;> rfl
  · rfl

end Refinement

/-! ## Calls -/

/-- What a call returns or raises. -/
inductive SendOutcome where
  | none
  | sent (n : Nat)
  | raised (e : Option SockErrno)
  deriving DecidableEq, Repr

/-- A call of `send`, `write` or `sendall`: its number, its buffer, the timeout that it found, and the bytes
that `tcp_write` has taken from it. -/
structure SendCall where
  id : Nat
  data : List UInt8
  all : Bool
  timeout : Option Nat
  written : List UInt8
  deriving DecidableEq, Repr

/-- A call that is not over, with the part of its buffer that is left in `bufinfo`. -/
structure SendFrame extends SendCall where
  rest : List UInt8
  running : Bool
  deriving DecidableEq, Repr

/-- A stream socket, the room in the buffer of its control block, the calls, the innermost first, what
`tcp_write` has taken, piece by piece with the numbers of the calls, the calls that are over, and how many
have begun. -/
structure SendConn where
  socket : Socket
  sndbuf : Nat
  frames : List SendFrame
  writes : List (Nat × List UInt8)
  ended : List (SendCall × SendOutcome)
  calls : Nat
  deriving DecidableEq, Repr

namespace SendConn

/-- The call is over. -/
def ends (c : SendConn) (f : SendCall) (o : SendOutcome) : SendConn := { c with ended := c.ended ++ [(f, o)] }

/-- The call goes on later. -/
def push (c : SendConn) (f : SendFrame) : SendConn := { c with frames := f :: c.frames }

/-- The bytes on their way, in order. -/
def stream (c : SendConn) : List UInt8 := c.writes.flatMap (·.2)

/-- All calls: those that are over and those that are not. -/
def begun (c : SendConn) : List SendCall := c.ended.map (·.1) ++ c.frames.map (·.toSendCall)

end SendConn

/-- What `tcp_write` and the clock answer in a turn: its result, the room it leaves, and the time being up. -/
structure WriteEnv where
  err : Int
  sndbuf : Nat
  late : Bool
  deriving DecidableEq, Repr

/-- Behind a call of `lwip_tcp_send`: `send` and `write` return, `sendall` goes round its loop. -/
def afterPiece (c : SendConn) (f : SendFrame) (env : WriteEnv) : SendStep → SendConn
  | .waits => c.push { f with running := false }
  | .failed e => c.ends f.toSendCall (.raised e)
  | .sent n =>
      let c := { c with writes := c.writes ++ [(f.id, f.rest.take n)], sndbuf := env.sndbuf }
      let f := { f with written := f.written ++ f.rest.take n, rest := f.rest.drop n, running := true }
      if f.all = false then c.ends f.toSendCall (.sent n)
      else if f.rest.length ≠ 0 then c.push f
      else c.ends f.toSendCall .none

section Methods

variable (recent : Bool)

/-- `lwip_socket_check_connected` in front of the rest of a method. -/
def sendCheckConnected (c : SendConn) (f : SendCall) (rest : SendConn) : SendConn :=
  if c.socket.pcb = none then
    { c with socket := { c.socket with state := errBadf }, calls := c.calls + 1 }.ends f
      (.raised (stateErrno recent c.socket))
  else rest

/-- The call of `send` or `write` for a buffer. -/
def SendConn.sendFrame (c : SendConn) (buf : List UInt8) : SendFrame :=
  ⟨⟨c.calls, buf, false, c.socket.timeout, []⟩, buf, true⟩

/-- The call of `sendall` for a buffer. -/
def SendConn.sendallFrame (c : SendConn) (buf : List UInt8) : SendFrame :=
  ⟨⟨c.calls, buf, true, c.socket.timeout, []⟩, buf, true⟩

/-- A call with a new number begins. -/
def SendConn.enter (c : SendConn) (f : SendFrame) : SendConn := { c with calls := c.calls + 1 }.push f

/-- `lwip_socket_send`, up to `lwip_tcp_send`. -/
def lwipSocketSend (c : SendConn) (buf : List UInt8) : SendConn :=
  sendCheckConnected recent c (c.sendFrame buf).toSendCall (c.enter (c.sendFrame buf))

/-- `lwip_socket_write`, up to `lwip_tcp_send`. -/
def lwipSocketWrite (c : SendConn) (buf : List UInt8) : SendConn := c.enter (c.sendFrame buf)

/-- `lwip_socket_sendall`, up to the first `lwip_tcp_send`. -/
def lwipSocketSendall (c : SendConn) (buf : List UInt8) : SendConn :=
  sendCheckConnected recent c (c.sendallFrame buf).toSendCall <|
    if c.socket.timeout = some 0 ∧ c.sndbuf < buf.length then
      { c with calls := c.calls + 1 }.ends (c.sendallFrame buf).toSendCall (.raised (some .eagain))
    else if buf.length ≠ 0 then c.enter (c.sendallFrame buf)
    else { c with calls := c.calls + 1 }.ends (c.sendallFrame buf).toSendCall .none

/-- A turn of the innermost call: `lwip_tcp_send` from its start, or a turn of the loop in it. -/
def sendAllTurn (c : SendConn) (env : WriteEnv) : Except SockFault SendConn :=
  match c.frames with
  | [] => .ok c
  | f :: frames =>
      let answers : SendEnv := ⟨c.sndbuf, env.err, env.late⟩
      let step :=
        if f.running then tcpSend recent c.socket f.rest.length c.sndbuf answers
        else tcpSendTurn recent c.socket f.rest.length answers
      step.map (afterPiece { c with frames := frames } f env)

/-! ## The machine -/

/-- What lwIP does to the socket, a method, or a turn of a call. -/
inductive SendEvent where
  /-- `_lwip_tcp_connected` and the end of the stream from the other side -/
  | stateCb (state : Int)
  /-- `_lwip_tcp_error` -/
  | errCb (err : Int)
  /-- lwIP makes or uses room in the buffer -/
  | room (sndbuf : Nat)
  | settimeout (timeout : Option Nat)
  /-- `lwip_socket_close`, as far as it goes for the senders -/
  | close
  | send (buf : List UInt8)
  | write (buf : List UInt8)
  | sendall (buf : List UInt8)
  | turn (env : WriteEnv)
  deriving DecidableEq, Repr

/-- Nothing comes between two pieces. -/
def sendEnabled (c : SendConn) : SendEvent → Prop
  | .turn _ => c.frames ≠ []
  | .stateCb state => (∀ f ∈ c.frames.head?, f.running = false) ∧
      (state = stateConnected ∨ state = statePeerClosed)
  | .errCb err => (∀ f ∈ c.frames.head?, f.running = false) ∧ -15 ≤ err ∧ err < 0
  | _ => ∀ f ∈ c.frames.head?, f.running = false

def sendNext (c : SendConn) : SendEvent → Except SockFault SendConn
  | .stateCb state => .ok { c with socket := { c.socket with state := state } }
  | .errCb err => .ok { c with socket := { c.socket with state := err, pcb := none } }
  | .room sndbuf => .ok { c with sndbuf := sndbuf }
  | .settimeout timeout => .ok { c with socket := { c.socket with timeout := timeout } }
  | .close =>
      if c.socket.pcb = none then .ok c
      else .ok { c with socket := { c.socket with pcb := none, state := errBadf } }
  | .send buf => .ok (lwipSocketSend recent c buf)
  | .write buf => .ok (lwipSocketWrite c buf)
  | .sendall buf => .ok (lwipSocketSendall recent c buf)
  | .turn env => sendAllTurn recent c env

/-- A stream socket under its senders and lwIP. -/
def senders : Machine SendConn SendEvent SockFault := ⟨sendEnabled, sendNext recent⟩

end Methods

/-- A socket without a call. -/
def SendConn.fresh (s : Socket) (sndbuf : Nat) : SendConn := ⟨s, sndbuf, [], [], [], 0⟩

instance (recent : Bool) (c : SendConn) (e : SendEvent) : Decidable ((senders recent).Enabled c e) :=
  match e with
  | .turn _ => inferInstanceAs (Decidable (c.frames ≠ []))
  | .stateCb state => inferInstanceAs (Decidable ((∀ f ∈ c.frames.head?, f.running = false) ∧
      (state = stateConnected ∨ state = statePeerClosed)))
  | .errCb err => inferInstanceAs (Decidable ((∀ f ∈ c.frames.head?, f.running = false) ∧ -15 ≤ err ∧ err < 0))
  | .room _ | .settimeout _ | .close | .send _ | .write _ | .sendall _ =>
      inferInstanceAs (Decidable (∀ f ∈ c.frames.head?, f.running = false))

/-! ## What the calls write -/

/-- What a call that is over has written. -/
structure SendCall.Wrote (f : SendCall) (o : SendOutcome) : Prop where
  /-- a part of its buffer from the start -/
  start : f.written <+: f.data
  /-- `sendall` returns when all of it is written -/
  all : o = .none → f.all = true ∧ f.written = f.data
  /-- `send` returns how much is -/
  count : ∀ n, o = .sent n → f.all = false ∧ f.written = f.data.take n ∧ f.written.length = n
  /-- where a `send` or a `sendall` without a timeout raises, nothing is written -/
  nothing : ∀ e, o = .raised e → f.all = false ∨ f.timeout = some 0 → f.written = []

theorem SendCall.Wrote.raised {f : SendCall} {e : Option SockErrno} (hstart : f.written <+: f.data)
    (hnothing : f.all = false ∨ f.timeout = some 0 → f.written = []) : f.Wrote (.raised e) where
  start := hstart
  all ho := by cases ho
  count n ho := by cases ho
  nothing _ _ := hnothing

theorem SendCall.Wrote.sent {f : SendCall} {n : Nat} (hsend : f.all = false)
    (hwritten : f.written = f.data.take n) (hn : n ≤ f.data.length) : f.Wrote (.sent n) where
  start := hwritten ▸ List.take_prefix n f.data
  all ho := by cases ho
  count k ho := by
    rw [← SendOutcome.sent.inj ho]
    have hlen : f.written.length = n := by rw [hwritten, List.length_take, Nat.min_eq_left hn]
    exact ⟨hsend, hwritten, hlen⟩
  nothing e ho := by cases ho

theorem SendCall.Wrote.whole {f : SendCall} (hall : f.all = true) (hwritten : f.written = f.data) :
    f.Wrote .none where
  start := hwritten ▸ List.prefix_refl f.written
  all _ := ⟨hall, hwritten⟩
  count n ho := by cases ho
  nothing e ho := by cases ho

/-- The pieces of a call, in order. -/
def piecesOf (writes : List (Nat × List UInt8)) (id : Nat) : List UInt8 :=
  (writes.filter fun w => w.1 = id).flatMap (·.2)

theorem piecesOf_append (writes more : List (Nat × List UInt8)) (id : Nat) :
    piecesOf (writes ++ more) id = piecesOf writes id ++ piecesOf more id := by
  unfold piecesOf
  rw [List.filter_append, List.flatMap_append]

/-- The pieces belong to the calls: every one to a call, and to each call, in order, those that make up what it
has written. `n` is the next number. -/
structure Logged (writes : List (Nat × List UInt8)) (calls : List SendCall) (n : Nat) : Prop where
  below : ∀ g ∈ calls, g.id < n
  distinct : (calls.map (·.id)).Nodup
  known : ∀ w ∈ writes, ∃ g ∈ calls, g.id = w.1
  handed : ∀ g ∈ calls, g.written = piecesOf writes g.id

namespace Logged

variable {writes : List (Nat × List UInt8)} {before behind : List SendCall} {f g : SendCall} {n : Nat}

theorem mem_middle {k : SendCall} : k ∈ before ++ g :: behind ↔ k = g ∨ k ∈ before ++ behind :=
  List.perm_middle.mem_iff.trans List.mem_cons

theorem ids_middle : ((before ++ g :: behind).map (·.id)).Nodup ↔
    g.id ∉ (before ++ behind).map (·.id) ∧ ((before ++ behind).map (·.id)).Nodup := by
  rw [List.map_append, List.map_cons, List.perm_middle.nodup_iff, List.nodup_cons, ← List.map_append]

/-- No other call has the number of a call. -/
theorem id_ne (h : Logged writes (before ++ f :: behind) n) {k : SendCall} (hk : k ∈ before ++ behind) :
    f.id ≠ k.id :=
  fun heq => (ids_middle.1 h.distinct).1 (List.mem_map.2 ⟨k, hk, heq.symm⟩)

/-- A call goes on, with pieces of its own. -/
theorem goes (h : Logged writes (before ++ f :: behind) n) {more : List (Nat × List UInt8)}
    (hmore : ∀ w ∈ more, w.1 = f.id) (hid : g.id = f.id) (hw : g.written = f.written ++ more.flatMap (·.2)) :
    Logged (writes ++ more) (before ++ g :: behind) n := by
  have hf : f ∈ before ++ f :: behind := mem_middle.2 (.inl rfl)
  have hg : g ∈ before ++ g :: behind := mem_middle.2 (.inl rfl)
  constructor
  · intro k hk
    rcases mem_middle.1 hk with rfl | hk
    · rw [hid]
      exact h.below f hf
    · exact h.below k (mem_middle.2 (.inr hk))
  · have hids := ids_middle.1 h.distinct
    rw [← hid] at hids
    exact ids_middle.2 hids
  · intro w hw
    rcases List.mem_append.1 hw with hold | hnew
    · rcases h.known w hold with ⟨k, hk, hkw⟩
      rcases mem_middle.1 hk with rfl | hk
      · exact ⟨g, hg, hid.trans hkw⟩
      · exact ⟨k, mem_middle.2 (.inr hk), hkw⟩
    · exact ⟨g, hg, hid.trans (hmore w hnew).symm⟩
  · intro k hk
    rw [piecesOf_append]
    rcases mem_middle.1 hk with rfl | hk
    · have hown : (more.filter fun w => w.1 = f.id) = more :=
        List.filter_eq_self.2 fun w hw => decide_eq_true (hmore w hw)
      rw [hid, hw, ← h.handed f hf, piecesOf, hown]
    · have hother : (more.filter fun w => w.1 = k.id) = [] := by
        refine List.filter_eq_nil_iff.2 fun w hw => ?_
        rw [hmore w hw, decide_eq_true_eq]
        exact h.id_ne hk
      rw [h.handed k (mem_middle.2 (.inr hk)), piecesOf, piecesOf, hother, List.flatMap_nil, List.append_nil]

/-- A call begins. -/
theorem begins (h : Logged writes (before ++ behind) n) (hid : g.id = n) (hnone : g.written = []) :
    Logged writes (before ++ g :: behind) (n + 1) := by
  constructor
  · intro k hk
    rcases mem_middle.1 hk with rfl | hk
    · omega
    · exact Nat.lt_succ_of_lt (h.below k hk)
  · refine ids_middle.2 ⟨fun hin => ?_, h.distinct⟩
    rcases List.mem_map.1 hin with ⟨k, hk, hkn⟩
    have hlt := h.below k hk
    omega
  · intro w hw
    rcases h.known w hw with ⟨k, hk, hkw⟩
    exact ⟨k, mem_middle.2 (.inr hk), hkw⟩
  · intro k hk
    rcases mem_middle.1 hk with rfl | hk
    · -- the pieces so far belong to calls with smaller numbers
      have hfilter : (writes.filter fun w => w.1 = k.id) = [] := by
        refine List.filter_eq_nil_iff.2 fun w hw => ?_
        rcases h.known w hw with ⟨k', hk', hkw⟩
        have hlt := h.below k' hk'
        rw [decide_eq_true_eq]
        omega
      rw [hnone, piecesOf, hfilter]
      rfl
    · exact h.handed k hk

end Logged

/-- The calls of a socket are in order. -/
structure SendInv (c : SendConn) : Prop where
  ended : ∀ f o, (f, o) ∈ c.ended → f.Wrote o
  split : ∀ f ∈ c.frames, f.data = f.written ++ f.rest
  once : ∀ f ∈ c.frames, f.all = false → f.written = []
  outer : ∀ f ∈ c.frames.tail, f.running = false
  /-- a `sendall` without a timeout has written nothing, and there is room for all of it -/
  atOnce : ∀ f ∈ c.frames, f.all = true → f.timeout = some 0 →
    f.running = true ∧ f.written = [] ∧ 0 < f.data.length ∧ f.data.length ≤ c.sndbuf
  logged : Logged c.writes c.begun c.calls

section Step

variable {recent : Bool} {c c' : SendConn}

/-- With room in the buffer `lwip_tcp_send` does not wait. -/
theorem tcpSend_room {s : Socket} {len available : Nat} {env : SendEnv} {step : SendStep}
    (hpos : 0 < available) (h : tcpSend recent s len available env = .ok step) :
    (∃ e, step = .failed e) ∨ step = .sent (min available len) := by
  unfold tcpSend tcpSendCheck at h
  split at h
  · exact .inl ⟨_, (Except.ok.inj h).symm⟩
  · split at h
    · cases h
    · rw [if_neg (by omega)] at h
      unfold tcpSendWrite at h
      split at h
      · exact .inl ⟨_, (Except.ok.inj h).symm⟩
      · exact .inr (Except.ok.inj h).symm

/-- No more is taken than there is. -/
theorem tcpSendWrite_le {len available n : Nat} {err : Int}
    (h : tcpSendWrite recent len available err = .ok (.sent n)) : n ≤ len := by
  unfold tcpSendWrite at h
  split at h
  · cases h
  · rw [← SendStep.sent.inj (Except.ok.inj h)]
    exact Nat.min_le_right available len

theorem tcpSendCheck_sent {s : Socket} {rest : Except SockFault SendStep} {n : Nat}
    (h : tcpSendCheck recent s rest = .ok (.sent n)) : rest = .ok (.sent n) := by
  unfold tcpSendCheck at h
  split at h
  · cases h
  · split at h
    · cases h
    · exact h

theorem tcpSendTurn_le {s : Socket} {len n : Nat} {env : SendEnv}
    (h : tcpSendTurn recent s len env = .ok (.sent n)) : n ≤ len := by
  unfold tcpSendTurn at h
  split at h
  · split at h
    · cases h
    · split at h
      · split at h <;> cases h
      · exact tcpSendWrite_le (tcpSendCheck_sent h)
  · exact tcpSendWrite_le (tcpSendCheck_sent h)

theorem tcpSend_le {s : Socket} {len available n : Nat} {env : SendEnv}
    (h : tcpSend recent s len available env = .ok (.sent n)) : n ≤ len := by
  unfold tcpSend at h
  have hrest := tcpSendCheck_sent h
  split at hrest
  · split at hrest
    · cases hrest
    · exact tcpSendTurn_le hrest
  · exact tcpSendWrite_le hrest

/-- The innermost call leaves. -/
theorem SendInv.leave (h : SendInv c) {f : SendFrame} {frames : List SendFrame} (hf : c.frames = f :: frames)
    {g : SendCall} {o : SendOutcome} (hg : g.Wrote o) {more : List (Nat × List UInt8)}
    (hmore : ∀ w ∈ more, w.1 = f.id) (hid : g.id = f.id) (hw : g.written = f.written ++ more.flatMap (·.2))
    (sndbuf : Nat) :
    SendInv ⟨c.socket, sndbuf, frames, c.writes ++ more, c.ended ++ [(g, o)], c.calls⟩ := by
  have houter : ∀ k ∈ frames, k.running = false := by
    intro k hk
    exact h.outer k (by rw [hf]; exact hk)
  have hmem : ∀ k ∈ frames, k ∈ c.frames := fun k hk => hf ▸ List.mem_cons_of_mem f hk
  constructor
  · intro k o' hk
    rcases List.mem_append.1 hk with hold | hnew
    · exact h.ended k o' hold
    · rcases List.mem_singleton.1 hnew with ⟨rfl, rfl⟩
      exact hg
  · exact fun k hk => h.split k (hmem k hk)
  · exact fun k hk => h.once k (hmem k hk)
  · exact fun k hk => houter k (List.mem_of_mem_tail hk)
  · intro k hk hall ht
    have hrun := (h.atOnce k (hmem k hk) hall ht).1
    rw [houter k hk] at hrun
    cases hrun
  · have hlog := h.logged
    unfold SendConn.begun at hlog ⊢
    rw [hf, List.map_cons] at hlog
    rw [List.map_append, List.append_assoc]
    exact hlog.goes hmore hid hw

/-- The innermost call stays. -/
theorem SendInv.stay (h : SendInv c) {f : SendFrame} {frames : List SendFrame} (hf : c.frames = f :: frames)
    {g : SendFrame} {more : List (Nat × List UInt8)} (hmore : ∀ w ∈ more, w.1 = f.id) (hid : g.id = f.id)
    (hw : g.written = f.written ++ more.flatMap (·.2)) (hsplit : g.data = g.written ++ g.rest)
    (honce : g.all = false → g.written = []) (hslow : ¬ (g.all = true ∧ g.timeout = some 0)) (sndbuf : Nat) :
    SendInv ⟨c.socket, sndbuf, g :: frames, c.writes ++ more, c.ended, c.calls⟩ := by
  have houter : ∀ k ∈ frames, k.running = false := by
    intro k hk
    exact h.outer k (by rw [hf]; exact hk)
  have hmem : ∀ k ∈ frames, k ∈ c.frames := fun k hk => hf ▸ List.mem_cons_of_mem f hk
  constructor
  · exact h.ended
  · intro k hk
    rcases List.mem_cons.1 hk with rfl | hk
    · exact hsplit
    · exact h.split k (hmem k hk)
  · intro k hk
    rcases List.mem_cons.1 hk with rfl | hk
    · exact honce
    · exact h.once k (hmem k hk)
  · exact houter
  · intro k hk hall ht
    rcases List.mem_cons.1 hk with rfl | hk
    · exact absurd ⟨hall, ht⟩ hslow
    · have hrun := (h.atOnce k (hmem k hk) hall ht).1
      rw [houter k hk] at hrun
      cases hrun
  · have hlog := h.logged
    unfold SendConn.begun at hlog ⊢
    rw [hf, List.map_cons] at hlog
    rw [List.map_cons]
    exact hlog.goes hmore hid hw

/-- What one turn of a call answers. -/
def SendFrame.answers (recent : Bool) (f : SendFrame) (socket : Socket) (sndbuf : Nat) (env : WriteEnv) :
    Except SockFault SendStep :=
  if f.running then tcpSend recent socket f.rest.length sndbuf ⟨sndbuf, env.err, env.late⟩
  else tcpSendTurn recent socket f.rest.length ⟨sndbuf, env.err, env.late⟩

theorem SendFrame.answers_le {f : SendFrame} {socket : Socket} {sndbuf n : Nat} {env : WriteEnv}
    (hr : f.answers recent socket sndbuf env = .ok (.sent n)) : n ≤ f.rest.length := by
  unfold SendFrame.answers at hr
  split at hr
  · exact tcpSend_le hr
  · exact tcpSendTurn_le hr

section Turn

variable {f : SendFrame} {frames : List SendFrame} {env : WriteEnv} {step : SendStep}

/-- A call without a timeout is served at once. -/
theorem SendInv.quick (h : SendInv c) (hin : f ∈ c.frames) (hall : f.all = true) (ht : f.timeout = some 0)
    (hr : f.answers recent c.socket c.sndbuf env = .ok step) :
    (∃ e, step = .failed e) ∨ step = .sent f.data.length := by
  rcases h.atOnce f hin hall ht with ⟨hrun, hnone, hpos, hroom⟩
  have hrest : f.rest = f.data := by rw [h.split f hin, hnone, List.nil_append]
  unfold SendFrame.answers at hr
  rw [hrun, if_pos rfl] at hr
  rcases tcpSend_room (by omega) hr with hfail | hsent
  · exact .inl hfail
  · rw [hrest, Nat.min_eq_right hroom] at hsent
    exact .inr hsent

/-- The innermost call waits for room. -/
theorem SendInv.waits (h : SendInv c) (hf : c.frames = f :: frames)
    (hr : f.answers recent c.socket c.sndbuf env = .ok .waits) :
    SendInv (afterPiece { c with frames := frames } f env .waits) := by
  have hin : f ∈ c.frames := hf ▸ List.mem_cons_self
  have hslow : ¬ (f.all = true ∧ f.timeout = some 0) := by
    rintro ⟨hall, ht⟩
    rcases h.quick hin hall ht hr with ⟨e, he⟩ | he <;> cases he
  have hstay := h.stay hf (g := { f with running := false }) (List.forall_mem_nil _) rfl
    (List.append_nil _).symm (h.split f hin) (h.once f hin) hslow c.sndbuf
  rw [List.append_nil] at hstay
  exact hstay

/-- The innermost call raises. -/
theorem SendInv.raises (h : SendInv c) (hf : c.frames = f :: frames) (e : Option SockErrno) :
    SendInv (afterPiece { c with frames := frames } f env (.failed e)) := by
  have hin : f ∈ c.frames := hf ▸ List.mem_cons_self
  have hwrote : f.toSendCall.Wrote (.raised e) := by
    refine .raised ⟨f.rest, (h.split f hin).symm⟩ fun hcase => ?_
    rcases hcase with hsend | ht
    · exact h.once f hin hsend
    · cases hall : f.all with
      | false => exact h.once f hin hall
      | true => exact (h.atOnce f hin hall ht).2.1
  have hleave := h.leave hf hwrote (List.forall_mem_nil _) rfl (List.append_nil _).symm c.sndbuf
  rw [List.append_nil] at hleave
  exact hleave

/-- lwIP takes some bytes of the innermost call. -/
theorem SendInv.takes (h : SendInv c) (hf : c.frames = f :: frames) {n : Nat}
    (hr : f.answers recent c.socket c.sndbuf env = .ok (.sent n)) :
    SendInv (afterPiece { c with frames := frames } f env (.sent n)) := by
  have hin : f ∈ c.frames := hf ▸ List.mem_cons_self
  have hsplit := h.split f hin
  have honce := h.once f hin
  have hmore : ∀ w ∈ [(f.id, f.rest.take n)], w.1 = f.id :=
    fun w hw => congrArg Prod.fst (List.mem_singleton.1 hw)
  have hnew : f.written ++ f.rest.take n = f.written ++ [(f.id, f.rest.take n)].flatMap (·.2) := by
    rw [List.flatMap_singleton]
  simp only [afterPiece]
  split
  · -- `send` and `write` return after one piece
    rename_i hsend
    have hnone := honce hsend
    have hrest : f.rest = f.data := by rw [hsplit, hnone, List.nil_append]
    refine h.leave hf
      (g := { f with written := f.written ++ f.rest.take n, rest := f.rest.drop n }.toSendCall)
      (.sent hsend ?_ (hrest ▸ SendFrame.answers_le hr)) hmore rfl hnew env.sndbuf
    rw [hnone, hrest]
    rfl
  · rename_i hall
    split
    · -- `sendall` goes on while something is left
      rename_i hleft
      have hslow : ¬ (f.all = true ∧ f.timeout = some 0) := by
        rintro ⟨hall, ht⟩
        rcases h.quick hin hall ht hr with ⟨e, he⟩ | he
        · cases he
        · apply hleft
          have hnone := (h.atOnce f hin hall ht).2.1
          rw [SendStep.sent.inj he, hsplit, hnone]
          simp
      refine h.stay hf
        (g := { f with written := f.written ++ f.rest.take n, rest := f.rest.drop n, running := true })
        hmore rfl hnew ?_ (fun hsend => absurd hsend hall) hslow env.sndbuf
      rw [List.append_assoc, List.take_append_drop]
      exact hsplit
    · rename_i hleft
      have hdrop : f.rest.drop n = [] := List.length_eq_zero_iff.1 (not_not.1 hleft)
      have hwhole : f.written ++ f.rest.take n = f.data := by
        have hcat := List.take_append_drop n f.rest
        rw [hdrop, List.append_nil] at hcat
        rw [hcat, hsplit]
      exact h.leave hf
        (g := { f with written := f.written ++ f.rest.take n, rest := f.rest.drop n }.toSendCall)
        (.whole (by simpa using hall) hwhole) hmore rfl hnew env.sndbuf

/-- A turn of the innermost call. -/
theorem SendInv.turn (h : SendInv c) (hn : sendAllTurn recent c env = .ok c') : SendInv c' := by
  unfold sendAllTurn at hn
  cases hf : c.frames with
  | nil =>
      simp only [hf] at hn
      exact Except.ok.inj hn ▸ h
  | cons f frames =>
      simp only [hf] at hn
      change Except.map (afterPiece { c with frames := frames } f env)
        (f.answers recent c.socket c.sndbuf env) = .ok c' at hn
      cases hr : f.answers recent c.socket c.sndbuf env with
      | error e =>
          rw [hr] at hn
          cases hn
      | ok step =>
          rw [hr] at hn
          rw [← Except.ok.inj hn]
          cases step with
          | waits => exact h.waits hf hr
          | failed e => exact h.raises hf e
          | sent n => exact h.takes hf hr

end Turn

/-- Where the innermost call is not running, none is. -/
theorem SendInv.idle (h : SendInv c) (hidle : ∀ f ∈ c.frames.head?, f.running = false) :
    ∀ f ∈ c.frames, f.running = false := by
  intro f hf
  cases hc : c.frames with
  | nil => rw [hc] at hf; cases hf
  | cons g frames =>
      rw [hc] at hf
      rcases List.mem_cons.1 hf with rfl | hf
      · exact hidle f (by rw [hc]; rfl)
      · exact h.outer f (by rw [hc]; exact hf)

/-- A call begins. -/
theorem SendInv.call (h : SendInv c) (hidle : ∀ f ∈ c.frames.head?, f.running = false) {f : SendFrame}
    (hid : f.id = c.calls) (hnone : f.written = []) (hrest : f.data = f.rest)
    (hquick : f.all = true → f.timeout = some 0 →
      f.running = true ∧ 0 < f.data.length ∧ f.data.length ≤ c.sndbuf) : SendInv (c.enter f) := by
  constructor
  · exact h.ended
  · intro k hk
    rcases List.mem_cons.1 hk with rfl | hk
    · rw [hnone, hrest]
      rfl
    · exact h.split k hk
  · intro k hk
    rcases List.mem_cons.1 hk with rfl | hk
    · exact fun _ => hnone
    · exact h.once k hk
  · exact h.idle hidle
  · intro k hk hall ht
    rcases List.mem_cons.1 hk with rfl | hk
    · rcases hquick hall ht with ⟨hrun, hlen⟩
      exact ⟨hrun, hnone, hlen⟩
    · exact h.atOnce k hk hall ht
  · exact h.logged.begins hid hnone

/-- A call is over before it has written anything. -/
theorem SendInv.refuse (h : SendInv c) {f : SendCall} {o : SendOutcome} (hf : f.Wrote o) (hid : f.id = c.calls)
    (hnone : f.written = []) (s : Socket) :
    SendInv ({ c with socket := s, calls := c.calls + 1 }.ends f o) := by
  refine ⟨?_, h.split, h.once, h.outer, h.atOnce, ?_⟩
  · intro k o' hk
    rcases List.mem_append.1 hk with hold | hnew
    · exact h.ended k o' hold
    · rcases List.mem_singleton.1 hnew with ⟨rfl, rfl⟩
      exact hf
  · have hlog := h.logged.begins hid hnone
    unfold SendConn.begun SendConn.ends
    rw [List.map_append, List.append_assoc]
    exact hlog

/-- Behind `lwip_socket_check_connected`. -/
theorem SendInv.checkConnected (h : SendInv c) {f : SendCall} (hid : f.id = c.calls) (hnone : f.written = [])
    {rest : SendConn} (hrest : SendInv rest) : SendInv (sendCheckConnected recent c f rest) := by
  unfold sendCheckConnected
  split
  · exact h.refuse (.raised (hnone ▸ List.nil_prefix) fun _ => hnone) hid hnone _
  · exact hrest

theorem SendInv.sendall (h : SendInv c) (hidle : ∀ f ∈ c.frames.head?, f.running = false) (buf : List UInt8) :
    SendInv (lwipSocketSendall recent c buf) := by
  refine h.checkConnected rfl rfl ?_
  split
  · exact h.refuse (.raised List.nil_prefix fun _ => rfl) rfl rfl c.socket
  · rename_i hroom
    split
    · rename_i hlen
      refine h.call hidle rfl rfl rfl fun _ ht => ⟨rfl, Nat.pos_of_ne_zero hlen, ?_⟩
      exact Nat.le_of_not_lt fun hlt => hroom ⟨ht, hlt⟩
    · rename_i hlen
      have hempty : buf = [] := List.length_eq_zero_iff.1 (not_not.1 hlen)
      exact h.refuse (.whole rfl hempty.symm) rfl rfl c.socket

theorem SendInv.step (h : SendInv c) {e : SendEvent} (hs : (senders recent).Step c e c') : SendInv c' := by
  rcases hs with ⟨hen, hn⟩
  have hn : sendNext recent c e = .ok c' := hn
  have hsocket : ∀ s, SendInv { c with socket := s } := fun s =>
    ⟨h.ended, h.split, h.once, h.outer, h.atOnce, h.logged⟩
  cases e with
  | stateCb state => exact Except.ok.inj hn ▸ hsocket _
  | errCb err => exact Except.ok.inj hn ▸ hsocket _
  | settimeout timeout => exact Except.ok.inj hn ▸ hsocket _
  | room sndbuf =>
      have hidle := h.idle hen
      refine Except.ok.inj hn ▸ ⟨h.ended, h.split, h.once, h.outer, fun f hf hall ht => ?_, h.logged⟩
      have hrun := (h.atOnce f hf hall ht).1
      rw [hidle f hf] at hrun
      cases hrun
  | close =>
      simp only [sendNext] at hn
      split at hn
      · exact Except.ok.inj hn ▸ h
      · exact Except.ok.inj hn ▸ hsocket _
  | send buf =>
      refine Except.ok.inj hn ▸ h.checkConnected rfl rfl (h.call hen rfl rfl rfl fun hall => ?_)
      cases hall
  | write buf =>
      refine Except.ok.inj hn ▸ h.call hen rfl rfl rfl fun hall => ?_
      cases hall
  | sendall buf => exact Except.ok.inj hn ▸ h.sendall hen buf
  | turn env => exact h.turn hn

end Step

/-- What the calls on a socket have written, in every run. A call of `sendall` that returned has handed all of
its buffer to lwIP, in order; one that raised has handed over a part from the start, and nothing of it if the
socket was not to wait. A call of `send` has handed over exactly as many bytes as it returned, the first ones
of its buffer, and nothing where it raised. A call that is not over holds what it has not handed over. The
stream is made of the pieces of these calls, which have a number each: no piece is from elsewhere, and those of
one call, in the order in which they are in the stream, are what that call has handed over. -/
theorem sendall_written {recent : Bool} {s : Socket} {sndbuf : Nat} {c : SendConn} {es : List SendEvent}
    (hrun : (senders recent).Run (.fresh s sndbuf) es c) :
    (∀ f o, (f, o) ∈ c.ended → f.Wrote o) ∧ (∀ f ∈ c.frames, f.data = f.written ++ f.rest) ∧
    (c.begun.map (·.id)).Nodup ∧ (∀ w ∈ c.writes, ∃ f ∈ c.begun, f.id = w.1) ∧
    ∀ f ∈ c.begun, f.written = piecesOf c.writes f.id := by
  have hlog : Logged [] [] 0 :=
    ⟨List.forall_mem_nil _, List.nodup_nil, List.forall_mem_nil _, List.forall_mem_nil _⟩
  have hfresh : SendInv (.fresh s sndbuf) :=
    ⟨fun _ _ hf => (List.not_mem_nil hf).elim, List.forall_mem_nil _, List.forall_mem_nil _, List.forall_mem_nil _,
      List.forall_mem_nil _, hlog⟩
  have h : SendInv c := hrun.invariant (I := SendInv) (fun _ _ _ hu hs => hu.step hs) hfresh
  exact ⟨h.ended, h.split, h.logged.distinct, h.logged.known, h.logged.handed⟩

/-- A `sendall` of 18 bytes finds room for 16 and waits; a `send` comes in between; the rest follows. -/
theorem sendall_written_two : ∃ c : SendConn,
    (c.ended = [(⟨1, [7, 8], false, none, [7, 8]⟩, .sent 2),
      (⟨0, List.replicate 18 1, true, none, List.replicate 18 1⟩, .none)] ∧
      c.stream = List.replicate 16 1 ++ [7, 8] ++ List.replicate 2 1) ∧
    (∀ f o, (f, o) ∈ c.ended → f.Wrote o) ∧ (∀ f ∈ c.frames, f.data = f.written ++ f.rest) ∧
    (c.begun.map (·.id)).Nodup ∧ (∀ w ∈ c.writes, ∃ f ∈ c.begun, f.id = w.1) ∧
    ∀ f ∈ c.begun, f.written = piecesOf c.writes f.id := by
  have hexec : ((senders true).exec (.fresh ⟨some ⟨false⟩, .null, none, 0, stateConnected⟩ 16)
      [.sendall (List.replicate 18 1), .turn ⟨0, 0, false⟩, .turn ⟨0, 0, false⟩, .room 4, .send [7, 8],
        .turn ⟨0, 2, false⟩, .room 20, .turn ⟨0, 18, false⟩]).any (fun c =>
      c.ended = [(⟨1, [7, 8], false, none, [7, 8]⟩, .sent 2),
        (⟨0, List.replicate 18 1, true, none, List.replicate 18 1⟩, .none)] ∧
      c.stream = List.replicate 16 1 ++ [7, 8] ++ List.replicate 2 1) = true := by decide
  rcases Machine.Run.of_exec_any hexec with ⟨c, hrun, hc⟩
  exact ⟨c, of_decide_eq_true hc, sendall_written hrun⟩

end Minipython.Mods
