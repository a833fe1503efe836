/-
# Minipython.Mods.SocketState — the state machine of a stream socket (modlwip.c)

The asserts of `STREAM_ERROR_CHECK` and `lwip_tcp_receive` say that a socket without an error has a control
block, and that one without data is connected or has an error. The callbacks and `recv` do not see to that:
a callback after `close` sets the state of a closed socket, and `recv` does not ask whether the socket is
connected, or listens and holds a connection in its union.

`SockInv` is what a socket keeps as long as every event is `SockGood`, and `sock_step_iff` says that the good
events are those after which it is as the asserts want it.

An event is judged by `Meets`: from a state in which everything is right it leads to such a state again, no
assert fails, and no table is read outside its bounds. For each event there is a lemma about what it does to
a state that satisfies `SockInv`; the lemmas `_keeps` say when the result satisfies it again. The direction
back is by cases: an event that is not good breaks something at once (`not_meets_of_breaks`).

What the run starts with is a new socket or one that an `accept` made. lwIP's error codes are those of its
`err.h`, from -1 to -15. `socket_breaks` goes through the ways in which a program gets to such a state.
-/
import Minipython.Mods.Socket

namespace Minipython.Mods

open Minipython.Lib

/-! ## What is wanted, and when it holds -/

/-- A socket without a control block has an error that is in the table. -/
def NullNegative (recent : Bool) (c : Conn) : Prop :=
  c.socket.pcb = none → c.socket.state < 0 ∧ (stateErrno recent c.socket).isSome = true

/-- No assert fails, no packet is read that was not stored, and a socket without a control block has an
error. -/
def Meets (recent : Bool) (c : Conn) (e : SockEvent) : Prop :=
  match (sockets recent).next c e with
  | .ok c' => NullNegative recent c'
  | .error f => f ≠ .assert ∧ f ≠ .pbufMisread

/-- The union holds a pending connection. -/
def PendingConnection (s : Socket) : Prop := ∃ pcb, s.incoming = .connection pcb

/-- An open socket that is read has no connection pending, and one that would wait is connected. -/
def Receivable (s : Socket) : Prop :=
  0 ≤ s.state → ¬ PendingConnection s ∧ (s.incoming = .null → s.timeout ≠ some 0 → stateConnected ≤ s.state)

/-- The events that leave a socket in order. -/
def SockGood (c : Conn) : SockEvent → Prop
  | .recvCb none | .connectedCb => c.socket.pcb ≠ none
  | .recv _ _ | .read _ _ => Receivable c.socket
  | .turn _ => (∃ len, c.frames.head? = some (.receive len)) → 0 ≤ c.socket.state →
      ¬ PendingConnection c.socket
  | _ => True

/-- What a socket keeps under good events. -/
structure SockInv (c : Conn) : Prop where
  closed : c.socket.pcb = none → errBadf ≤ c.socket.state ∧ c.socket.state < 0
  opened : c.socket.pcb ≠ none → 0 ≤ c.socket.state ∧ c.socket.state ≤ statePeerClosed
  /-- only a listening socket has a connection pending -/
  pending : PendingConnection c.socket → c.socket.pcb ≠ some ⟨false⟩
  accepts : c.callbacks.accept = true → c.socket.pcb ≠ some ⟨false⟩
  /-- a socket that was connected stays so until it gets an error -/
  receives : ∀ len, .receive len ∈ c.frames → c.socket.state < 0 ∨ stateConnected ≤ c.socket.state

section Step

variable {recent : Bool} {c c' : Conn} {e : SockEvent} {len : Nat} {late : Bool}

theorem errorLookup_isSome {i : Int} (h0 : 0 ≤ i) (h16 : i ≤ 16) :
    (errorLookup recent i).isSome = true := by
  have hlen : (errorLookupTable recent).length = 17 := by cases recent <;> rfl
  have hlt : i.toNat < (errorLookupTable recent).length := by omega
  rw [errorLookup, if_neg (by omega), List.getElem?_eq_getElem hlt]
  rfl

theorem SockInv.nullNegative (h : SockInv c) : NullNegative recent c := by
  intro hp
  obtain ⟨hlow, hneg⟩ := h.closed hp
  unfold errBadf at hlow
  exact ⟨hneg, errorLookup_isSome (by omega) (by omega)⟩

/-- An open socket has a control block. -/
theorem SockInv.pcb_ne (h : SockInv c) (h0 : 0 ≤ c.socket.state) : c.socket.pcb ≠ none := by
  intro hp
  have := (h.closed hp).2
  omega

/-! ## What the functions do to a socket -/

/-- The state and the control block stay, the union is emptied at most, and a method that comes to wait for
data does so in a connected socket. -/
structure Quiet (c c' : Conn) : Prop where
  pcb : c'.socket.pcb = c.socket.pcb
  state : c'.socket.state = c.socket.state
  callbacks : c'.callbacks = c.callbacks
  incoming : c'.socket.incoming = c.socket.incoming ∨ c'.socket.incoming = .null
  frames : ∀ len, .receive len ∈ c'.frames → .receive len ∈ c.frames ∨ c.socket.state = stateConnected

theorem SockInv.quiet (h : SockInv c) (hq : Quiet c c') : SockInv c' := by
  refine ⟨?_, ?_, ?_, ?_, ?_⟩
  · rw [hq.pcb, hq.state]
    exact h.closed
  · rw [hq.pcb, hq.state]
    exact h.opened
  · rintro ⟨k, hk⟩
    rw [hq.pcb]
    rcases hq.incoming with hin | hin
    · exact h.pending ⟨k, hin ▸ hk⟩
    · rw [hin] at hk
      cases hk
  · rw [hq.pcb, hq.callbacks]
    exact h.accepts
  · intro len hlen
    rw [hq.state]
    rcases hq.frames len hlen with hold | hconn
    · exact h.receives len hold
    · exact .inr (Int.le_of_eq hconn.symm)

theorem Quiet.ends (c : Conn) (o : Outcome) : Quiet c (c.ends o) :=
  ⟨rfl, rfl, rfl, .inl rfl, fun _ h => .inl h⟩

/-- A function that ends without a fault and leaves the socket quiet. -/
def Clean (c : Conn) (r : Except SockFault Conn) : Prop := ∃ c', r = .ok c' ∧ Quiet c c'

/-- A function that runs into an assert, or reads a packet that was not stored. -/
def Breaks (r : Except SockFault Conn) : Prop := r = .error .assert ∨ r = .error .pbufMisread

theorem Clean.ends (c : Conn) (o : Outcome) : Clean c (.ok (c.ends o)) := ⟨_, rfl, .ends c o⟩

/-- A wait for something else than data. -/
theorem Clean.waits (c : Conn) {f : Frame} (hf : ∀ len, f ≠ .receive len) : Clean c (.ok (c.waits f)) := by
  refine ⟨_, rfl, rfl, rfl, rfl, .inl rfl, fun len hlen => .inl ?_⟩
  rcases List.mem_cons.1 hlen with heq | hmem
  · exact absurd heq.symm (hf len)
  · exact hmem

/-- `lwip_tcp_receive` behind its wait: it needs a packet. -/
theorem receiveData_spec (hp : c.socket.pcb ≠ none) (hin : c.socket.incoming ≠ .null) :
    (¬ PendingConnection c.socket → Clean c (receiveData c len)) ∧
      (PendingConnection c.socket → Breaks (receiveData c len)) := by
  unfold receiveData
  rw [if_neg hp]
  cases hinc : c.socket.incoming with
  | null => exact absurd hinc hin
  | connection k => exact ⟨fun hno => absurd ⟨k, hinc⟩ hno, fun _ => .inr rfl⟩
  | pbuf p =>
      refine ⟨fun _ => ?_, ?_⟩
      · simp only
        generalize (if c.socket.leftoverCount = 0 then p.length else c.socket.leftoverCount) = leftover
        by_cases hmore : len < leftover
        · rw [if_pos hmore]
          exact ⟨_, rfl, rfl, rfl, rfl, .inl rfl, fun _ h => .inl h⟩
        · rw [if_neg hmore]
          exact ⟨_, rfl, rfl, rfl, rfl, .inr rfl, fun _ h => .inl h⟩
      · rintro ⟨k, hk⟩
        rw [hinc] at hk
        cases hk

/-- A turn of the wait needs a socket that is or was connected, or has an error. -/
theorem receiveTurn_spec (h : SockInv c) :
    ((c.socket.state < 0 ∨ stateConnected ≤ c.socket.state) →
        (0 ≤ c.socket.state → ¬ PendingConnection c.socket) → Clean c (receiveTurn recent c len late)) ∧
      (0 ≤ c.socket.state → c.socket.state < stateConnected → Breaks (receiveTurn recent c len late)) ∧
      (stateConnected ≤ c.socket.state → PendingConnection c.socket →
        Breaks (receiveTurn recent c len late)) := by
  unfold receiveTurn
  have h2 : stateConnected = 2 := rfl
  have h3 : statePeerClosed = 3 := rfl
  by_cases hneg : c.socket.state < 0
  · rw [if_neg (by omega), if_neg (by omega), if_pos (by omega), if_pos hneg]
    exact ⟨fun _ _ => .ends _ _, fun h0 => absurd hneg (by omega), fun h0 => absurd hneg (by omega)⟩
  · have hp : c.socket.pcb ≠ none := h.pcb_ne (by omega)
    have hle := (h.opened hp).2
    by_cases hnew : c.socket.state < stateConnected
    · rw [if_neg (by omega), if_neg (by omega), if_pos (by omega), if_neg hneg]
      exact ⟨fun hst => absurd hst (by omega), fun _ _ => .inl rfl, fun hst => absurd hnew (by omega)⟩
    · by_cases hnull : c.socket.incoming = .null
      · have hno : ¬ PendingConnection c.socket := by
          rintro ⟨k, hk⟩
          rw [hnull] at hk
          cases hk
        refine ⟨fun _ _ => ?_, fun _ hlt => absurd hlt hnew, fun _ hk => absurd hk hno⟩
        by_cases hconn : c.socket.state = stateConnected
        · rw [if_pos ⟨hconn, hnull⟩]
          split
          · exact .ends _ _
          · exact ⟨_, rfl, rfl, rfl, rfl, .inl rfl, fun _ _ => .inr hconn⟩
        · rw [if_neg (fun hh => hconn hh.1), if_pos (by omega), if_pos hnull]
          exact .ends _ _
      · have hdata := @receiveData_spec c len hp hnull
        have hturn : (if c.socket.state = statePeerClosed then
              if c.socket.incoming = .null then .ok (c.ends (.bytes [])) else receiveData c len
            else if c.socket.state ≠ stateConnected then
              if c.socket.state < 0 then .ok (c.ends (.failed (stateErrno recent c.socket)))
              else .error .assert
            else receiveData c len) = receiveData c len := by
          by_cases hpeer : c.socket.state = statePeerClosed
          · rw [if_pos hpeer, if_neg hnull]
          · rw [if_neg hpeer, if_neg (by omega)]
        rw [if_neg (fun hh => hnull hh.2), hturn]
        exact ⟨fun _ hno => hdata.1 (hno (by omega)), fun _ hlt => absurd hlt hnew, fun _ => hdata.2⟩

/-- `lwip_tcp_receive` goes well exactly on a socket that can be read. -/
theorem lwipTcpReceive_spec (h : SockInv c) :
    (Receivable c.socket → Clean c (lwipTcpReceive recent c len late)) ∧
      (¬ Receivable c.socket → Breaks (lwipTcpReceive recent c len late)) := by
  unfold lwipTcpReceive streamErrorCheck
  have h2 : stateConnected = 2 := rfl
  by_cases hneg : c.socket.state < 0
  · rw [if_pos hneg]
    exact ⟨fun _ => .ends _ _, fun hno => absurd (fun h0 => absurd hneg (by omega)) hno⟩
  · have h0 : 0 ≤ c.socket.state := by omega
    have hp : c.socket.pcb ≠ none := h.pcb_ne h0
    rw [if_neg hneg, if_neg hp]
    by_cases hnull : c.socket.incoming = .null
    · have hnone : ¬ PendingConnection c.socket := by
        rintro ⟨k, hk⟩
        rw [hnull] at hk
        cases hk
      rw [if_pos hnull]
      by_cases ht : c.socket.timeout = some 0
      · rw [if_pos ht]
        refine ⟨fun _ => ?_, fun hno => absurd (fun _ => ⟨hnone, fun _ hne => absurd ht hne⟩) hno⟩
        split
        · exact .ends _ _
        · exact .ends _ _
      · rw [if_neg ht]
        obtain ⟨hclean, hbreak, -⟩ := @receiveTurn_spec recent c len late h
        constructor
        · intro hr
          exact hclean (.inr ((hr h0).2 hnull ht)) fun _ => hnone
        · intro hno
          apply hbreak h0
          by_contra hge
          exact hno fun _ => ⟨hnone, fun _ _ => by omega⟩
    · rw [if_neg hnull]
      have hdata := @receiveData_spec c len hp hnull
      constructor
      · intro hr
        exact hdata.1 (hr h0).1
      · intro hno
        apply hdata.2
        by_contra hnone
        exact hno fun _ => ⟨hnone, fun hh => absurd hh hnull⟩

/-- Sending leaves the socket alone. -/
theorem sendTurn_clean (h : SockInv c) (env : SendEnv) : Clean c (sendTurn recent c len env) := by
  have hwrite : ∀ available, Clean c (sendWrite recent c len available env.err) := by
    intro available
    unfold sendWrite
    split
    · exact .ends _ _
    · exact .ends _ _
  have hcheck : ∀ available,
      Clean c (streamErrorCheck recent c (sendWrite recent c len available env.err)) := by
    intro available
    unfold streamErrorCheck
    split
    · exact .ends _ _
    · rename_i hneg
      rw [if_neg (h.pcb_ne (by omega))]
      exact hwrite available
  unfold sendTurn
  split
  · rename_i hst
    have h2 : stateConnected = 2 := rfl
    rw [if_neg (h.pcb_ne (by omega))]
    split
    · split
      · exact .ends _ _
      · exact .waits _ fun _ hh => (by cases hh)
    · exact hcheck _
  · exact hcheck _

theorem lwipTcpSend_clean (h : SockInv c) (available : Nat) (env : SendEnv) :
    Clean c (lwipTcpSend recent c len available env) := by
  unfold lwipTcpSend streamErrorCheck
  split
  · exact .ends _ _
  · rename_i hneg
    rw [if_neg (h.pcb_ne (by omega))]
    split
    · split
      · exact .ends _ _
      · exact sendTurn_clean h env
    · unfold sendWrite
      split
      · exact .ends _ _
      · exact .ends _ _

/-- The wait of `accept` never takes the union for a packet. -/
theorem acceptTurn_spec : Clean c (acceptTurn c late) ∨ acceptTurn c late = .error .connMisread := by
  unfold acceptTurn
  split
  · left
    split
    · exact .ends _ _
    · exact .waits _ fun _ hh => (by cases hh)
  · exact .inr rfl
  · exact .inl ⟨_, rfl, rfl, rfl, rfl, .inr rfl, fun _ hh => .inl hh⟩

theorem connectTurn_quiet : Quiet c (connectTurn recent c late) := by
  unfold connectTurn
  split
  · split
    · exact .ends _ _
    · obtain ⟨c', hc', hq⟩ := Clean.waits c (f := .connect) fun _ hh => (by cases hh)
      rw [Except.ok.inj hc']
      exact hq
  · split
    · exact .ends _ _
    · exact .ends _ _

/-! ## One event -/

/-- An event that meets its purpose and keeps the invariant. -/
def Keeps (recent : Bool) (c : Conn) (e : SockEvent) : Prop :=
  Meets recent c e ∧ ∀ c', (sockets recent).next c e = .ok c' → SockInv c'

theorem keeps_of_inv (hn : (sockets recent).next c e = .ok c') (h : SockInv c') : Keeps recent c e := by
  refine ⟨?_, fun c'' hc'' => ?_⟩
  · unfold Meets
    rw [hn]
    exact h.nullNegative
  · rw [hn] at hc''
    rw [← Except.ok.inj hc'']
    exact h

theorem keeps_of_clean (h : SockInv c) (hc : Clean c ((sockets recent).next c e)) : Keeps recent c e := by
  obtain ⟨c', hn, hq⟩ := hc
  exact keeps_of_inv hn (h.quiet hq)

theorem keeps_of_fault {f : SockFault} (hn : (sockets recent).next c e = .error f)
    (hf : f ≠ .assert ∧ f ≠ .pbufMisread) : Keeps recent c e := by
  refine ⟨?_, fun c' hc' => ?_⟩
  · unfold Meets
    rw [hn]
    exact hf
  · rw [hn] at hc'
    cases hc'

theorem not_meets_of_breaks (hb : Breaks ((sockets recent).next c e)) : ¬ Meets recent c e := by
  unfold Meets
  rcases hb with hb | hb
  · rw [hb]
    exact fun hh => hh.1 rfl
  · rw [hb]
    exact fun hh => hh.2 rfl

/-- A method behind `lwip_socket_check_connected`. -/
theorem keeps_of_checkConnected (h : SockInv c) {rest : Except SockFault Conn}
    (hn : (sockets recent).next c e = checkConnected recent c rest) (hr : Clean c rest) :
    Keeps recent c e := by
  by_cases hp : c.socket.pcb = none
  · rw [checkConnected, if_pos hp] at hn
    refine keeps_of_inv hn ⟨fun _ => ⟨Int.le_refl _, (by decide : errBadf < 0)⟩, fun hh => absurd hp hh, ?_,
      h.accepts, fun _ _ => .inl (by decide : errBadf < 0)⟩
    exact h.pending
  · rw [checkConnected, if_neg hp] at hn
    exact keeps_of_clean h (hn ▸ hr)

/-- A callback that sets the state of a connection needs one that is not closed. -/
theorem opened_keeps (h : SockInv c) {state : Int} (hlow : stateConnected ≤ state)
    (hhigh : state ≤ statePeerClosed)
    (hn : (sockets recent).next c e = .ok { c with socket := { c.socket with state := state } }) :
    (c.socket.pcb ≠ none → Keeps recent c e) ∧ (¬ c.socket.pcb ≠ none → ¬ Meets recent c e) := by
  have h2 : stateConnected = 2 := rfl
  constructor
  · intro hp
    exact keeps_of_inv hn ⟨fun hh => absurd hh hp, fun _ => ⟨(by omega : 0 ≤ state), hhigh⟩, h.pending,
      h.accepts, fun _ _ => .inr hlow⟩
  · intro hp hm
    unfold Meets at hm
    rw [hn] at hm
    have hneg : state < 0 := (hm (not_not.1 hp)).1
    omega

/-- Storing something in an empty union. -/
theorem store_keeps (h : SockInv c) {incoming : Incoming} {effects : List Effect}
    (hpend : (∃ pcb, incoming = .connection pcb) → c.socket.pcb ≠ some ⟨false⟩)
    (hn : (sockets recent).next c e =
      .ok ({ c with socket := { c.socket with incoming := incoming } }.emit effects)) : Keeps recent c e :=
  keeps_of_inv hn ⟨h.closed, h.opened, hpend, h.accepts, h.receives⟩

theorem keeps_same (h : SockInv c) (hn : (sockets recent).next c e = .ok c) : Keeps recent c e :=
  keeps_of_inv hn h

theorem recvCb_keeps (h : SockInv c) (payload : List UInt8) : Keeps recent c (.recvCb (some payload)) := by
  by_cases hnull : c.socket.incoming ≠ .null
  · exact keeps_same h (congrArg (fun x : Int × Conn => Except.ok x.2) (if_pos hnull))
  · exact store_keeps h (fun ⟨_, hh⟩ => (by cases hh))
      (congrArg (fun x : Int × Conn => Except.ok x.2) (if_neg hnull))

theorem acceptCb_keeps (h : SockInv c) (k : Nat) (he : (sockets recent).Enabled c (.acceptCb k)) :
    Keeps recent c (.acceptCb k) := by
  by_cases hnull : c.socket.incoming ≠ .null
  · exact keeps_same h (congrArg (fun x : Int × Conn => Except.ok x.2) (if_pos hnull))
  · have hn : (sockets recent).next c (.acceptCb k) =
        .ok ({ c with socket := { c.socket with incoming := .connection k } }.emit []) := by
      have hstore : lwipTcpAccept c k =
          (errOk, { c with socket := { c.socket with incoming := .connection k } }) := if_neg hnull
      show Except.ok (lwipTcpAccept c k).2 = _
      rw [hstore, Conn.emit, List.append_nil]
    exact store_keeps h (fun _ => h.accepts he) hn

theorem errCb_keeps (err : Int) (he : (sockets recent).Enabled c (.errCb err)) :
    Keeps recent c (.errCb err) := by
  obtain ⟨-, hlow, hneg⟩ := he
  have hbadf : errBadf = -16 := rfl
  exact keeps_of_inv rfl ⟨fun _ => ⟨(by omega : errBadf ≤ err), hneg⟩, fun hh => absurd rfl hh,
    fun _ hh => (by cases hh), fun hh => (by cases hh), fun _ _ => .inl hneg⟩

theorem listen_keeps (h : SockInv c) (ok : Bool) : Keeps recent c (.listen ok) := by
  have hn : (sockets recent).next c (.listen ok) = .ok (lwipSocketListen c ok) := rfl
  unfold lwipSocketListen at hn
  split at hn
  · exact keeps_of_clean h (hn ▸ .ends _ _)
  · rename_i hp
    split at hn
    · exact keeps_of_clean h (hn ▸ .ends _ _)
    · exact keeps_of_inv hn ⟨fun hh => (by cases hh), fun _ => h.opened hp, fun _ hh => (by cases hh),
        fun _ hh => (by cases hh), h.receives⟩

theorem accept_keeps (h : SockInv c) (late : Bool) : Keeps recent c (.accept late) := by
  have hn : (sockets recent).next c (.accept late) = lwipSocketAccept c late := rfl
  unfold lwipSocketAccept at hn
  split at hn
  · exact keeps_of_clean h (hn ▸ .ends _ _)
  · split at hn
    · exact keeps_of_clean h (hn ▸ .ends _ _)
    · rcases @acceptTurn_spec c late with hclean | hmis
      · exact keeps_of_clean h (hn ▸ hclean)
      · exact keeps_of_fault (hn.trans hmis) (by decide)

theorem connect_keeps (h : SockInv c) (err : Int) (late : Bool) : Keeps recent c (.connect err late) := by
  have hn : (sockets recent).next c (.connect err late) = .ok (lwipSocketConnect recent c err late) := rfl
  unfold lwipSocketConnect at hn
  have hinv : SockInv { c with callbacks := { c.callbacks with recv := true, connected := true } } :=
    ⟨h.closed, h.opened, h.pending, h.accepts, h.receives⟩
  split at hn
  · exact keeps_of_clean h (hn ▸ .ends _ _)
  · rename_i hp
    split at hn
    · exact keeps_of_clean h (hn ▸ .ends _ _)
    · rename_i hnew
      simp only at hn
      split at hn
      · exact keeps_of_inv hn (hinv.quiet (.ends _ _))
      · -- nothing waits for data in a socket that is new
        have hnone : ∀ len, .receive len ∉ c.frames := by
          intro len hlen
          have h0 : stateNew = 0 := rfl
          have h2 : stateConnected = 2 := rfl
          rcases h.receives len hlen with hh | hh <;> omega
        refine keeps_of_inv hn (SockInv.quiet ?_ connectTurn_quiet)
        exact ⟨fun hh => absurd hh hp, fun _ => ⟨(by decide : 0 ≤ stateConnecting),
          (by decide : stateConnecting ≤ statePeerClosed)⟩, h.pending, h.accepts,
          fun len hlen => absurd hlen (hnone len)⟩

theorem close_keeps (h : SockInv c) (ok : Bool) : Keeps recent c (.close ok) := by
  have hn : (sockets recent).next c (.close ok) = lwipSocketClose c ok := rfl
  unfold lwipSocketClose at hn
  split at hn
  · exact keeps_of_clean h (hn ▸ .ends _ _)
  · rename_i pcb hp
    have hclosed : ∀ incoming effects, SockInv
        ({ c with
            socket := { c.socket with pcb := none, state := errBadf, incoming := incoming }
            callbacks := if ok then c.callbacks else .off }.emit effects) := fun incoming effects =>
      ⟨fun _ => ⟨Int.le_refl _, (by decide : errBadf < 0)⟩, fun hh => absurd rfl hh,
        fun _ hh => (by cases hh), fun _ hh => (by cases hh), fun _ _ => .inl (by decide : errBadf < 0)⟩
    have hfinish : ∀ c', SockInv c' → (sockets recent).next c (.close ok) = .ok (c'.ends .none) →
        Keeps recent c (.close ok) := fun c' hc' hok => keeps_of_inv hok (hc'.quiet (.ends _ _))
    obtain ⟨listen⟩ := pcb
    cases hinc : c.socket.incoming with
    | null =>
        simp only [hinc] at hn
        exact hfinish _ (hclosed .null []) (hn.trans (by rw [Conn.emit, List.append_nil]))
    | pbuf p =>
        cases listen with
        | false =>
            simp only [hinc] at hn
            exact hfinish _ (hclosed .null [.freed p]) hn
        | true =>
            simp only [hinc] at hn
            exact keeps_of_fault hn (by decide)
    | connection k =>
        cases listen with
        | false => exact absurd hp (h.pending ⟨k, hinc⟩)
        | true =>
            simp only [hinc] at hn
            exact hfinish _ (hclosed .null []) (hn.trans (by rw [Conn.emit, List.append_nil]))

/-- A turn of a waiting method. -/
theorem turn_step (h : SockInv c) (env : SendEnv) :
    (SockGood c (.turn env) → Keeps recent c (.turn env)) ∧
      (¬ SockGood c (.turn env) → ¬ Meets recent c (.turn env)) := by
  have hn : (sockets recent).next c (.turn env) = sockTurn recent c env := rfl
  unfold sockTurn at hn
  cases hf : c.frames with
  | nil =>
      rw [hf] at hn
      refine ⟨fun _ => keeps_same h hn, fun hno => absurd ?_ hno⟩
      rintro ⟨len, hlen⟩
      rw [hf] at hlen
      cases hlen
  | cons f frames =>
      rw [hf] at hn
      simp only at hn
      have hpop : SockInv { c with frames := frames } :=
        ⟨h.closed, h.opened, h.pending, h.accepts, fun len hlen => h.receives len (hf ▸ .tail _ hlen)⟩
      have hquiet : ∀ c', Quiet { c with frames := frames } c' → SockInv c' := fun _ hq => hpop.quiet hq
      have hother : (∀ len, f ≠ .receive len) → SockGood c (.turn env) := by
        rintro hne ⟨len, hlen⟩
        rw [hf] at hlen
        exact absurd (Option.some.inj hlen) (hne len)
      have hkeeps : ∀ r, Clean { c with frames := frames } r → (sockets recent).next c (.turn env) = r →
          Keeps recent c (.turn env) := by
        rintro _ ⟨c', rfl, hq⟩ hr
        exact keeps_of_inv hr (hquiet c' hq)
      cases f with
      | receive len =>
          have hst := h.receives len (hf ▸ List.mem_cons_self)
          obtain ⟨hclean, -, hbreak⟩ := @receiveTurn_spec recent _ len env.late hpop
          refine ⟨fun hg => hkeeps _ (hclean hst (hg ⟨len, by rw [hf]; rfl⟩)) hn, fun hno => ?_⟩
          apply not_meets_of_breaks
          rw [hn]
          obtain ⟨-, hrest⟩ := Classical.not_imp.1 hno
          obtain ⟨h0, hpend⟩ := Classical.not_imp.1 hrest
          refine hbreak (hst.resolve_left ?_) (not_not.1 hpend)
          exact Int.not_lt.2 h0
      | send len =>
          have hg := hother fun _ hh => (by cases hh)
          exact ⟨fun _ => hkeeps _ (sendTurn_clean hpop env) hn, fun hno => absurd hg hno⟩
      | accept =>
          have hg := hother fun _ hh => (by cases hh)
          refine ⟨fun _ => ?_, fun hno => absurd hg hno⟩
          rcases @acceptTurn_spec { c with frames := frames } env.late with hclean | hmis
          · exact hkeeps _ hclean hn
          · exact keeps_of_fault (hn.trans hmis) (by decide)
      | connect =>
          have hg := hother fun _ hh => (by cases hh)
          exact ⟨fun _ => keeps_of_inv hn (hquiet _ connectTurn_quiet), fun hno => absurd hg hno⟩

/-- On a socket in order, exactly the good events meet their purpose, and they keep it in order. -/
theorem sock_step_iff (h : SockInv c) (he : (sockets recent).Enabled c e) :
    (Meets recent c e ↔ SockGood c e) ∧
      (SockGood c e → ∀ c', (sockets recent).next c e = .ok c' → SockInv c') := by
  have hsplit : (SockGood c e → Keeps recent c e) ∧ (¬ SockGood c e → ¬ Meets recent c e) →
      (Meets recent c e ↔ SockGood c e) ∧
        (SockGood c e → ∀ c', (sockets recent).next c e = .ok c' → SockInv c') := by
    rintro ⟨hgood, hbad⟩
    refine ⟨⟨fun hm => ?_, fun hg => (hgood hg).1⟩, fun hg => (hgood hg).2⟩
    by_contra hno
    exact hbad hno hm
  have hall : SockGood c e → Keeps recent c e → (SockGood c e → Keeps recent c e) ∧
      (¬ SockGood c e → ¬ Meets recent c e) := fun hg hk => ⟨fun _ => hk, fun hno => absurd hg hno⟩
  apply hsplit
  cases e with
  | recvCb p =>
      cases p with
      | none => exact opened_keeps h (by decide) (by decide) rfl
      | some payload => exact hall trivial (recvCb_keeps h payload)
  | connectedCb => exact opened_keeps h (by decide) (by decide) rfl
  | errCb err => exact hall trivial (errCb_keeps err he)
  | acceptCb k => exact hall trivial (acceptCb_keeps h k he)
  | free =>
      refine hall trivial (keeps_of_inv rfl ⟨h.closed, h.opened, h.pending, ?_, h.receives⟩)
      exact fun hh => (by cases hh)
  | bind err =>
      refine hall trivial ?_
      have hn : (sockets recent).next c (.bind err) = lwipSocketBind recent c err := rfl
      unfold lwipSocketBind at hn
      split at hn
      · exact keeps_of_fault hn (by decide)
      · split at hn
        · exact keeps_of_clean h (hn ▸ .ends _ _)
        · exact keeps_of_clean h (hn ▸ .ends _ _)
  | listen ok => exact hall trivial (listen_keeps h ok)
  | accept late => exact hall trivial (accept_keeps h late)
  | connect err late => exact hall trivial (connect_keeps h err late)
  | send len available env =>
      exact hall trivial (keeps_of_checkConnected h rfl (lwipTcpSend_clean h available env))
  | write len available env => exact hall trivial (keeps_of_clean h (lwipTcpSend_clean h available env))
  | recv len late =>
      obtain ⟨hclean, hbreak⟩ := @lwipTcpReceive_spec recent c len late h
      refine ⟨fun hg => keeps_of_checkConnected h rfl (hclean hg), fun hno => ?_⟩
      apply not_meets_of_breaks
      have hp : c.socket.pcb ≠ none := by
        apply h.pcb_ne
        by_contra hneg
        exact hno fun h0 => absurd h0 hneg
      show Breaks (checkConnected recent c _)
      rw [checkConnected, if_neg hp]
      exact hbreak hno
  | read len late =>
      obtain ⟨hclean, hbreak⟩ := @lwipTcpReceive_spec recent c len late h
      exact ⟨fun hg => keeps_of_clean h (hclean hg), fun hno => not_meets_of_breaks (hbreak hno)⟩
  | settimeout t =>
      exact hall trivial (keeps_of_inv rfl ⟨h.closed, h.opened, h.pending, h.accepts, h.receives⟩)
  | close ok => exact hall trivial (close_keeps h ok)
  | turn env => exact turn_step h env

end Step

/-! ## Runs -/

theorem sockInv_makeNew : SockInv lwipSocketMakeNew :=
  ⟨fun hh => (by cases hh), fun _ => ⟨by decide, by decide⟩, fun ⟨_, hh⟩ => (by cases hh),
    fun hh => (by cases hh), fun _ hh => (by cases hh)⟩

theorem sockInv_accepted (timeout : Option Nat) : SockInv (lwipSocketAccepted timeout) :=
  ⟨fun hh => (by cases hh), fun _ => ⟨(by decide : 0 ≤ stateConnected),
      (by decide : stateConnected ≤ statePeerClosed)⟩, fun ⟨_, hh⟩ => (by cases hh),
    fun hh => (by cases hh), fun _ hh => (by cases hh)⟩

/-- Where the events of a socket were good, it has an error if it has no control block, and the good events
are exactly those that go on without a failing assert, without a misread packet and with that so. The socket
is new or one that an `accept` made. The second half is about the next event, in every state that good
events reach: it meets what is asked exactly if it is good. -/
theorem socket_meets_iff {recent : Bool} {start c : Conn} {es : List SockEvent}
    (hstart : start = lwipSocketMakeNew ∨ ∃ timeout, start = lwipSocketAccepted timeout)
    (hrun : ((sockets recent).restrict SockGood).Run start es c) :
    NullNegative recent c ∧ ∀ e, (sockets recent).Enabled c e → (Meets recent c e ↔ SockGood c e) := by
  have hinit : SockInv start := by
    rcases hstart with rfl | ⟨timeout, rfl⟩
    · exact sockInv_makeNew
    · exact sockInv_accepted timeout
  have hinv : SockInv c := by
    refine hrun.invariant (I := SockInv) (fun u e v hu hs => ?_) hinit
    obtain ⟨hstep, hgood⟩ := Machine.restrict_step.1 hs
    exact (sock_step_iff hu hstep.1).2 hgood v hstep.2
  exact ⟨hinv.nullNegative, fun e he => (sock_step_iff hinv he).1⟩

/-- A socket connects, gets a packet, is read and closed. -/
theorem socket_meets_iff_connect : ∃ c,
    ((sockets true).restrict SockGood).Run lwipSocketMakeNew
      [.connect 0 false, .connectedCb, .turn ⟨0, 0, false⟩, .recvCb (some [1, 2]), .recv 1 false, .close true] c ∧
    c.socket.pcb = none ∧ NullNegative true c ∧
    ∀ e, (sockets true).Enabled c e → (Meets true c e ↔ SockGood c e) := by
  have hreceivable : ∀ p n, Receivable ⟨some ⟨false⟩, .pbuf p, none, n, stateConnected⟩ := fun _ _ _ =>
    ⟨fun ⟨_, hh⟩ => (by cases hh), fun hh => (by cases hh)⟩
  have hrun : ((sockets true).restrict SockGood).Run lwipSocketMakeNew
      [.connect 0 false, .connectedCb, .turn ⟨0, 0, false⟩, .recvCb (some [1, 2]), .recv 1 false, .close true] _ :=
    .cons (Machine.restrict_step.2 ⟨⟨trivial, rfl⟩, trivial⟩)
      (.cons (Machine.restrict_step.2 ⟨⟨rfl, rfl⟩, fun hh => (by cases hh)⟩)
        (.cons (Machine.restrict_step.2 ⟨⟨by decide, rfl⟩, fun ⟨_, hh⟩ => (by cases hh)⟩)
          (.cons (Machine.restrict_step.2 ⟨⟨by decide, rfl⟩, trivial⟩)
            (.cons (Machine.restrict_step.2 ⟨⟨trivial, rfl⟩, hreceivable _ _⟩)
              (.cons (Machine.restrict_step.2 ⟨⟨trivial, rfl⟩, trivial⟩) (.nil _))))))
  exact ⟨_, hrun, rfl, socket_meets_iff (.inl rfl) hrun⟩

/-- Reading a new socket runs into an assert. After `close` the news that the peer has closed its side makes
the state of a socket without a control block 3, for which there is no errno. And reading a listening socket
takes a pending connection for a packet. -/
theorem socket_breaks :
    (sockets true).next lwipSocketMakeNew (.recv 1 false) = .error .assert ∧
    (∃ c, (sockets true).Run (lwipSocketAccepted none) [.close true, .recvCb none] c ∧
      c.socket.pcb = none ∧ c.socket.state = 3 ∧ stateErrno true c.socket = none ∧ ¬ NullNegative true c) ∧
    ∃ c, (sockets true).Run lwipSocketMakeNew [.listen true, .acceptCb 7] c ∧
      (sockets true).next c (.read 1 false) = .error .pbufMisread := by
  refine ⟨rfl, ⟨_, .cons ⟨trivial, rfl⟩ (.cons ⟨by decide, rfl⟩ (.nil _)), rfl, rfl, rfl, ?_⟩,
    ⟨_, .cons ⟨trivial, rfl⟩ (.cons ⟨rfl, rfl⟩ (.nil _)), rfl⟩⟩
  intro hneg
  exact absurd (hneg rfl).1 (by decide)

end Minipython.Mods
