/-
# Minipython.Mods.SocketStream — the bytes that a socket receives (modlwip.c)

`_lwip_tcp_recv` keeps one packet in the socket, and `lwip_tcp_receive` hands it out in pieces. The place in
the packet is the number of bytes left over, where 0 stands for a packet that was not touched yet.

`StreamInv` is the invariant of both: what was handed out, and then the rest of the packet in the socket, is
what the packets hold that were accepted.

The log of a connection notes what was accepted, freed, copied and returned, and each length that
`tcp_recved` was told. `StreamInv` ties the log to the socket: the bytes of accepted packets are the
returned ones followed by the rest of the packet that is held. A read of any length copies from the packet
until one of the two is used up, and frees the packet behind its last byte.

The events are those of `StreamEvent`: deliveries, reads of any length and time-out, writes, and the turns
of methods that wait. A packet has between 1 and 65535 bytes, as `tot_len` has 16 bits and lwIP delivers no
empty one. A delivery while a packet is held is refused with `ERR_BUF`, and lwIP delivers it again later.
-/
import Minipython.Mods.Socket

namespace Minipython.Mods

open Minipython.Lib

/-! ## The past of a socket -/

/-- The packets that were accepted, in order. -/
def acceptedOf (log : List Effect) : List (List UInt8) :=
  log.filterMap fun e => match e with
    | .accepted p => some p
    | _ => none

/-- The packets that were freed, in order. -/
def freedOf (log : List Effect) : List (List UInt8) :=
  log.filterMap fun e => match e with
    | .freed p => some p
    | _ => none

/-- The bytes that were copied to buffers of the callers. -/
def copiedOf (log : List Effect) : List UInt8 :=
  log.flatMap fun e => match e with
    | .copied l => l
    | _ => []

/-- The bytes that were returned. -/
def returnedOf (log : List Effect) : List UInt8 :=
  log.flatMap fun e => match e with
    | .returns (.bytes l) => l
    | _ => []

/-- The lengths that were passed to `tcp_recved`, together. -/
def recvedOf (log : List Effect) : Nat :=
  (log.map fun e => match e with
    | .tcpRecved n => n
    | _ => 0).sum

/-- When a packet is freed, the last byte of all packets so far has been copied. -/
def FreedLate (log : List Effect) : Prop :=
  ∀ i p, log[i]? = some (.freed p) → copiedOf (log.take i) = (acceptedOf (log.take i)).flatten

section Append

variable (l l' : List Effect)

theorem acceptedOf_append : acceptedOf (l ++ l') = acceptedOf l ++ acceptedOf l' := List.filterMap_append

theorem freedOf_append : freedOf (l ++ l') = freedOf l ++ freedOf l' := List.filterMap_append

theorem copiedOf_append : copiedOf (l ++ l') = copiedOf l ++ copiedOf l' := List.flatMap_append

theorem returnedOf_append : returnedOf (l ++ l') = returnedOf l ++ returnedOf l' := List.flatMap_append

theorem recvedOf_append : recvedOf (l ++ l') = recvedOf l + recvedOf l' := by
  simp [recvedOf]

end Append

theorem FreedLate.append {l l' : List Effect} (h : FreedLate l)
    (hnew : ∀ i p, l'[i]? = some (.freed p) →
      copiedOf (l ++ l'.take i) = (acceptedOf (l ++ l'.take i)).flatten) : FreedLate (l ++ l') := by
  intro i p hi
  by_cases hlt : i < l.length
  · rw [List.getElem?_append_left hlt] at hi
    rw [List.take_append_of_le_length (Nat.le_of_lt hlt)]
    exact h i p hi
  · have hle : l.length ≤ i := Nat.le_of_not_lt hlt
    rw [List.getElem?_append_right hle] at hi
    rw [List.take_append, List.take_of_length_le hle]
    exact hnew _ p hi

/-! ## The packet in the socket -/

/-- The bytes of the packet in the socket that were not handed out. -/
def rest (s : Socket) : List UInt8 :=
  match s.incoming with
  | .pbuf p => p.drop (p.length - if s.leftoverCount = 0 then p.length else s.leftoverCount)
  | _ => []

/-- The packet in the socket. -/
def slot (s : Socket) : List (List UInt8) :=
  match s.incoming with
  | .pbuf p => [p]
  | _ => []

theorem rest_null {s : Socket} (h : s.incoming = .null) : rest s = [] := by rw [rest, h]

theorem slot_null {s : Socket} (h : s.incoming = .null) : slot s = [] := by rw [slot, h]

theorem slot_pbuf {s : Socket} {p : List UInt8} (h : s.incoming = .pbuf p) : slot s = [p] := by rw [slot, h]

/-- An untouched packet. -/
theorem rest_fresh {s : Socket} {p : List UInt8} (h : s.incoming = .pbuf p) (h0 : s.leftoverCount = 0) :
    rest s = p := by
  rw [rest, h, h0]
  simp

/-- A packet with some bytes left over. -/
theorem rest_left {s : Socket} {p : List UInt8} (h : s.incoming = .pbuf p) (h0 : 0 < s.leftoverCount) :
    rest s = p.drop (p.length - s.leftoverCount) := by
  rw [rest, h]
  simp only
  rw [if_neg (by omega)]

/-- The stream is intact. -/
structure StreamInv (c : Conn) : Prop where
  pcb : c.socket.pcb ≠ none
  state : stateConnected ≤ c.socket.state ∧ c.socket.state ≤ statePeerClosed
  kind : ∀ k, c.socket.incoming ≠ .connection k
  size : ∀ p, c.socket.incoming = .pbuf p →
    0 < p.length ∧ p.length ≤ 65535 ∧ c.socket.leftoverCount ≤ p.length
  fresh : c.socket.incoming = .null → c.socket.leftoverCount = 0
  stream : copiedOf c.log ++ rest c.socket = (acceptedOf c.log).flatten
  owned : acceptedOf c.log = freedOf c.log ++ slot c.socket
  returned : returnedOf c.log = copiedOf c.log
  recved : recvedOf c.log = (copiedOf c.log).length
  freedLate : FreedLate c.log

section Step

variable {recent : Bool} {c c' : Conn} {e : SockEvent} {len : Nat} {late : Bool}

/-- What a function adds to the past has to carry on from the rest of the packet. -/
theorem StreamInv.extend (h : StreamInv c) (s : Socket) (l : List Effect) (hs : c'.socket = s)
    (hlog : c'.log = c.log ++ l) (hpcb : s.pcb = c.socket.pcb) (hst : s.state = c.socket.state)
    (hkind : ∀ k, s.incoming ≠ .connection k)
    (hsize : ∀ p, s.incoming = .pbuf p → 0 < p.length ∧ p.length ≤ 65535 ∧ s.leftoverCount ≤ p.length)
    (hfresh : s.incoming = .null → s.leftoverCount = 0)
    (hstream : copiedOf l ++ rest s = rest c.socket ++ (acceptedOf l).flatten)
    (howned : slot c.socket ++ acceptedOf l = freedOf l ++ slot s)
    (hret : returnedOf l = copiedOf l) (hrec : recvedOf l = (copiedOf l).length)
    (hlate : ∀ i p, l[i]? = some (.freed p) →
      copiedOf (l.take i) = rest c.socket ++ (acceptedOf (l.take i)).flatten) : StreamInv c' := by
  subst hs
  refine ⟨hpcb ▸ h.pcb, hst ▸ h.state, hkind, hsize, hfresh, ?_, ?_, ?_, ?_, ?_⟩
  · calc copiedOf c'.log ++ rest c'.socket
        = copiedOf c.log ++ (copiedOf l ++ rest c'.socket) := by
          rw [hlog, copiedOf_append, List.append_assoc]
      _ = copiedOf c.log ++ rest c.socket ++ (acceptedOf l).flatten := by
          rw [hstream, List.append_assoc]
      _ = (acceptedOf c'.log).flatten := by
          rw [h.stream, hlog, acceptedOf_append, List.flatten_append]
  · calc acceptedOf c'.log = freedOf c.log ++ (slot c.socket ++ acceptedOf l) := by
          rw [hlog, acceptedOf_append, h.owned, List.append_assoc]
      _ = freedOf c'.log ++ slot c'.socket := by
          rw [howned, hlog, freedOf_append, List.append_assoc]
  · rw [hlog, returnedOf_append, copiedOf_append, h.returned, hret]
  · rw [hlog, recvedOf_append, copiedOf_append, List.length_append, h.recved, hrec]
  · rw [hlog]
    refine h.freedLate.append fun i p hi => ?_
    rw [copiedOf_append, acceptedOf_append, List.flatten_append, hlate i p hi, ← h.stream, List.append_assoc]

/-- Nothing happens to the stream. -/
structure Idle (c c' : Conn) : Prop where
  socket : c'.socket = c.socket
  log : c'.log = c.log ∨ ∃ o, c'.log = c.log ++ [.returns o] ∧ returnedOf [.returns o] = []

theorem Idle.ends (c : Conn) {o : Outcome} (ho : returnedOf [.returns o] = []) : Idle c (c.ends o) :=
  ⟨rfl, .inr ⟨o, rfl, ho⟩⟩

theorem Idle.waits (c : Conn) (f : Frame) : Idle c (c.waits f) := ⟨rfl, .inl rfl⟩

theorem StreamInv.idle (h : StreamInv c) (hi : Idle c c') : StreamInv c' := by
  obtain ⟨hs, hlog⟩ := hi
  obtain ⟨l, hl, hret, hquiet⟩ :
      ∃ l, c'.log = c.log ++ l ∧ returnedOf l = [] ∧ ∀ e ∈ l, ∃ o, e = .returns o := by
    rcases hlog with hlog | ⟨o, hlog, ho⟩
    · exact ⟨[], by rw [hlog, List.append_nil], rfl, fun _ hh => absurd hh List.not_mem_nil⟩
    · exact ⟨_, hlog, ho, fun e he => ⟨o, List.mem_singleton.1 he⟩⟩
  have hcopied : copiedOf l = [] := List.flatMap_eq_nil_iff.2 fun e he => by
    obtain ⟨o, rfl⟩ := hquiet e he
    rfl
  have haccepted : acceptedOf l = [] := List.filterMap_eq_nil_iff.2 fun e he => by
    obtain ⟨o, rfl⟩ := hquiet e he
    rfl
  have hfreed : freedOf l = [] := List.filterMap_eq_nil_iff.2 fun e he => by
    obtain ⟨o, rfl⟩ := hquiet e he
    rfl
  have hrecved : recvedOf l = 0 := List.sum_eq_zero_iff_forall_eq_nat.2 fun n hn => by
    obtain ⟨e, he, rfl⟩ := List.mem_map.1 hn
    obtain ⟨o, rfl⟩ := hquiet e he
    rfl
  refine h.extend c.socket l hs hl rfl rfl h.kind h.size h.fresh ?_ ?_ ?_ ?_ ?_
  · rw [hcopied, haccepted]
    simp
  · rw [haccepted, hfreed]
    simp
  · rw [hret, hcopied]
  · rw [hrecved, hcopied]
    rfl
  · intro i p hi
    obtain ⟨o, ho⟩ := hquiet _ (List.mem_of_getElem? hi)
    cases ho

theorem toU16_of_le {n : Nat} (h : n ≤ 65535) : toU16 n = n := Nat.mod_eq_of_lt (by omega)

/-- What `lwip_tcp_receive` does with a packet: it hands out the next bytes. -/
theorem receiveData_eq (h : StreamInv c) {p : List UInt8} (hp : c.socket.incoming = .pbuf p) :
    receiveData c len = .ok
      (if len < (rest c.socket).length then
        { c with socket := { c.socket with leftoverCount := (rest c.socket).length - len } }.emit
          [.copied ((rest c.socket).take len), .tcpRecved ((rest c.socket).take len).length,
            .returns (.bytes ((rest c.socket).take len))]
      else
        { c with socket := { c.socket with incoming := .null, leftoverCount := 0 } }.emit
          [.copied (rest c.socket), .freed p, .tcpRecved (rest c.socket).length,
            .returns (.bytes (rest c.socket))]) := by
  obtain ⟨hpos, hmax, hle⟩ := h.size p hp
  have hrest : rest c.socket =
      p.drop (p.length - if c.socket.leftoverCount = 0 then p.length else c.socket.leftoverCount) := by
    rw [rest, hp]
  unfold receiveData
  rw [if_neg h.pcb, hp]
  simp only
  have hleft : (if c.socket.leftoverCount = 0 then p.length else c.socket.leftoverCount) ≤ p.length := by
    split
    · exact Nat.le_refl _
    · exact hle
  generalize (if c.socket.leftoverCount = 0 then p.length else c.socket.leftoverCount) = leftover
    at hrest hleft ⊢
  have hlen : (rest c.socket).length = leftover := by
    rw [hrest, List.length_drop]
    omega
  have hcopy : pbufCopyPartial p (toU16 (if len ≤ leftover then len else leftover))
      (toU16 (p.length - leftover)) = (rest c.socket).take len := by
    have hn : (if len ≤ leftover then len else leftover) ≤ 65535 := by
      split <;> omega
    rw [pbufCopyPartial, toU16_of_le hn, toU16_of_le (by omega), ← hrest]
    split
    · rfl
    · rw [List.take_of_length_le (by omega), List.take_of_length_le (by omega)]
  rw [hcopy, hlen]
  by_cases hmore : len < leftover
  · rw [if_pos hmore, if_pos hmore]
  · rw [if_neg hmore, if_neg hmore, List.take_of_length_le (by omega), hlen]

/-- The rest of a packet by its length. -/
theorem StreamInv.rest_eq (h : StreamInv c) {p : List UInt8} (hp : c.socket.incoming = .pbuf p) :
    (rest c.socket).length ≤ p.length ∧ rest c.socket = p.drop (p.length - (rest c.socket).length) := by
  obtain ⟨-, -, hle⟩ := h.size p hp
  rw [rest, hp]
  simp only [List.length_drop]
  refine ⟨by omega, ?_⟩
  congr 1
  split <;> omega

/-- Reading a packet keeps the stream intact. -/
theorem receiveData_keeps (h : StreamInv c) (hn : c.socket.incoming ≠ .null) :
    ∃ c', receiveData c len = .ok c' ∧ StreamInv c' := by
  cases hp : c.socket.incoming with
  | null => exact absurd hp hn
  | connection k => exact absurd hp (h.kind k)
  | pbuf p =>
      refine ⟨_, receiveData_eq h hp, ?_⟩
      obtain ⟨hpos, hmax, -⟩ := h.size p hp
      obtain ⟨hlen, hwhole⟩ := h.rest_eq hp
      have hslot := slot_pbuf hp
      by_cases hmore : len < (rest c.socket).length
      · rw [if_pos hmore]
        have hnext : rest { c.socket with leftoverCount := (rest c.socket).length - len } =
            (rest c.socket).drop len := by
          have hplace : p.length - ((rest c.socket).length - len) =
              p.length - (rest c.socket).length + len := by omega
          have hleft := @rest_left { c.socket with leftoverCount := (rest c.socket).length - len } p hp
            (Nat.sub_pos_of_lt hmore)
          rw [hleft, hplace, ← List.drop_drop, ← hwhole]
        refine h.extend { c.socket with leftoverCount := (rest c.socket).length - len } _ rfl rfl rfl rfl
          h.kind ?_ ?_ ?_ ?_ ?_ ?_ ?_
        · intro q hq
          obtain rfl : p = q := Incoming.pbuf.inj (hp.symm.trans hq)
          exact ⟨hpos, hmax, (by omega : (rest c.socket).length - len ≤ p.length)⟩
        · intro hnull
          exact absurd (hp.symm.trans hnull) (by simp)
        · rw [hnext]
          simp [copiedOf, acceptedOf]
        · have hslot' : slot { c.socket with leftoverCount := (rest c.socket).length - len } = [p] :=
            slot_pbuf hp
          rw [hslot, hslot']
          simp [freedOf, acceptedOf]
        · simp [returnedOf, copiedOf]
        · simp [recvedOf, copiedOf]
        · intro i q hq
          have hmem := List.mem_of_getElem? hq
          simp at hmem
      · rw [if_neg hmore]
        refine h.extend { c.socket with incoming := .null, leftoverCount := 0 } _ rfl rfl rfl rfl
          (fun k hk => (by cases hk)) (fun q hq => (by cases hq)) (fun _ => rfl) ?_ ?_ ?_ ?_ ?_
        · have hrest : rest { c.socket with incoming := .null, leftoverCount := 0 } = [] := rest_null rfl
          rw [hrest]
          simp [copiedOf, acceptedOf]
        · have hslot' : slot { c.socket with incoming := .null, leftoverCount := 0 } = [] := slot_null rfl
          rw [hslot, hslot']
          simp [freedOf, acceptedOf]
        · simp [returnedOf, copiedOf]
        · simp [recvedOf, copiedOf]
        · -- the packet is freed behind its last bytes
          intro i q hq
          obtain rfl : i = 1 := by
            match i, hq with
            | 0, hq => simp at hq
            | 1, _ => rfl
            | 2, hq => simp at hq
            | 3, hq => simp at hq
            | n + 4, hq => simp at hq
          simp [copiedOf, acceptedOf]

/-- A turn of a wait for data either does nothing to the stream, or reads a packet. -/
theorem receiveTurn_keeps (h : StreamInv c) :
    ∃ c', receiveTurn recent c len late = .ok c' ∧ StreamInv c' := by
  have h2 : stateConnected = 2 := rfl
  have h3 : statePeerClosed = 3 := rfl
  have hstate := h.state
  unfold receiveTurn
  by_cases hnull : c.socket.incoming = .null
  · by_cases hconn : c.socket.state = stateConnected
    · rw [if_pos ⟨hconn, hnull⟩]
      split
      · exact ⟨_, rfl, h.idle (.ends _ rfl)⟩
      · exact ⟨_, rfl, h.idle (.waits _ _)⟩
    · rw [if_neg fun hh => hconn hh.1, if_pos (by omega), if_pos hnull]
      exact ⟨_, rfl, h.idle (.ends _ rfl)⟩
  · obtain ⟨c', hc', hinv⟩ := @receiveData_keeps c len h hnull
    refine ⟨c', ?_, hinv⟩
    by_cases hpeer : c.socket.state = statePeerClosed
    · rw [if_neg fun hh => hnull hh.2, if_pos hpeer, if_neg hnull]
      exact hc'
    · rw [if_neg fun hh => hnull hh.2, if_neg hpeer, if_neg (by omega)]
      exact hc'

theorem lwipTcpReceive_keeps (h : StreamInv c) :
    ∃ c', lwipTcpReceive recent c len late = .ok c' ∧ StreamInv c' := by
  have h2 : stateConnected = 2 := rfl
  have hstate := h.state
  unfold lwipTcpReceive streamErrorCheck
  rw [if_neg (by omega), if_neg h.pcb]
  by_cases hnull : c.socket.incoming = .null
  · rw [if_pos hnull]
    split
    · split
      · exact ⟨_, rfl, h.idle (.ends _ rfl)⟩
      · exact ⟨_, rfl, h.idle (.ends _ rfl)⟩
    · exact receiveTurn_keeps h
  · rw [if_neg hnull]
    exact receiveData_keeps h hnull

/-- A delivery. -/
theorem lwipTcpRecv_keeps (h : StreamInv c) {payload : List UInt8} (hpos : 0 < payload.length)
    (hmax : payload.length ≤ 65535) : StreamInv (lwipTcpRecv c (some payload)).2 := by
  unfold lwipTcpRecv
  simp only
  by_cases hnull : c.socket.incoming = .null
  · rw [if_neg (not_not.2 hnull)]
    have hleft := h.fresh hnull
    refine h.extend { c.socket with incoming := .pbuf payload } _ rfl rfl rfl rfl
      (fun k hk => (by cases hk)) ?_ (fun hh => (by cases hh)) ?_ ?_ ?_ ?_ ?_
    · intro q hq
      obtain rfl : payload = q := Incoming.pbuf.inj hq
      exact ⟨hpos, hmax, (by omega : c.socket.leftoverCount ≤ payload.length)⟩
    · have hrest : rest { c.socket with incoming := .pbuf payload } = payload := rest_fresh rfl hleft
      rw [rest_null hnull, hrest]
      simp [copiedOf, acceptedOf]
    · have hslot : slot { c.socket with incoming := .pbuf payload } = [payload] := slot_pbuf rfl
      rw [slot_null hnull, hslot]
      simp [freedOf, acceptedOf]
    · simp [returnedOf, copiedOf]
    · simp [recvedOf, copiedOf]
    · intro i q hq
      have hmem := List.mem_of_getElem? hq
      simp at hmem
  · rw [if_pos hnull]
    exact h

/-- Sending does nothing to the stream. -/
theorem sendTurn_idle {env : SendEnv} (hs : sendTurn recent c len env = .ok c') : Idle c c' := by
  have hwrite : ∀ available, sendWrite recent c len available env.err = .ok c' → Idle c c' := by
    intro available hw
    unfold sendWrite at hw
    split at hw
    · exact Except.ok.inj hw ▸ .ends _ rfl
    · exact Except.ok.inj hw ▸ .ends _ rfl
  have hcheck : ∀ available,
      streamErrorCheck recent c (sendWrite recent c len available env.err) = .ok c' → Idle c c' := by
    intro available hw
    unfold streamErrorCheck at hw
    split at hw
    · exact Except.ok.inj hw ▸ .ends _ rfl
    · split at hw
      · cases hw
      · exact hwrite available hw
  unfold sendTurn at hs
  split at hs
  · split at hs
    · cases hs
    · split at hs
      · split at hs
        · exact Except.ok.inj hs ▸ .ends _ rfl
        · exact Except.ok.inj hs ▸ .waits _ _
      · exact hcheck _ hs
  · exact hcheck _ hs

theorem lwipTcpSend_idle {available : Nat} {env : SendEnv}
    (hs : lwipTcpSend recent c len available env = .ok c') : Idle c c' := by
  unfold lwipTcpSend streamErrorCheck at hs
  split at hs
  · exact Except.ok.inj hs ▸ .ends _ rfl
  · split at hs
    · cases hs
    · split at hs
      · split at hs
        · exact Except.ok.inj hs ▸ .ends _ rfl
        · exact sendTurn_idle hs
      · unfold sendWrite at hs
        split at hs
        · exact Except.ok.inj hs ▸ .ends _ rfl
        · exact Except.ok.inj hs ▸ .ends _ rfl

/-! ## Runs -/

/-- Deliveries, reads and writes, and the turns of those that wait. -/
def StreamEvent : SockEvent → Prop
  | .recvCb _ | .recv _ _ | .read _ _ | .send _ _ _ | .write _ _ _ | .settimeout _ | .turn _ => True
  | _ => False

/-- A method behind `lwip_socket_check_connected`, on a socket with a control block. -/
theorem checkConnected_eq (h : StreamInv c) (r : Except SockFault Conn) : checkConnected recent c r = r :=
  if_neg h.pcb

/-- The stream does not depend on who waits. -/
theorem StreamInv.frames (h : StreamInv c) (frames : List Frame) : StreamInv { c with frames := frames } :=
  ⟨h.pcb, h.state, h.kind, h.size, h.fresh, h.stream, h.owned, h.returned, h.recved, h.freedLate⟩

/-- A connected socket holds no connection that `accept` could take. -/
theorem StreamInv.acceptTurn (h : StreamInv c) {late : Bool} (hn : Mods.acceptTurn c late = .ok c') :
    StreamInv c' := by
  unfold Mods.acceptTurn at hn
  split at hn
  · split at hn
    · exact Except.ok.inj hn ▸ h.idle (.ends _ rfl)
    · exact Except.ok.inj hn ▸ h.idle (.waits _ _)
  · cases hn
  · rename_i k hk
    exact absurd hk (h.kind k)

theorem StreamInv.connectTurn (h : StreamInv c) (late : Bool) :
    StreamInv (Mods.connectTurn recent c late) := by
  unfold Mods.connectTurn
  split
  · split
    · exact h.idle (.ends _ rfl)
    · exact h.idle (.waits _ _)
  · split
    · exact h.idle (.ends _ rfl)
    · exact h.idle (.ends _ rfl)

theorem StreamInv.turn (h : StreamInv c) {env : SendEnv} (hn : sockTurn recent c env = .ok c') :
    StreamInv c' := by
  unfold sockTurn at hn
  split at hn
  · exact Except.ok.inj hn ▸ h
  · rename_i f frames hf
    have hpop := h.frames frames
    cases f with
    | receive len =>
        have hn : receiveTurn recent { c with frames := frames } len env.late = .ok c' := hn
        obtain ⟨c'', hc'', hinv⟩ := @receiveTurn_keeps recent _ len env.late hpop
        rw [hc''] at hn
        exact Except.ok.inj hn ▸ hinv
    | send len => exact hpop.idle (sendTurn_idle hn)
    | accept => exact hpop.acceptTurn hn
    | connect => exact Except.ok.inj hn ▸ hpop.connectTurn env.late

theorem StreamInv.step (h : StreamInv c) (hs : (sockets recent).Step c e c') (he : StreamEvent e) :
    StreamInv c' := by
  obtain ⟨hen, hn⟩ := hs
  have hn : sockNext recent c e = .ok c' := hn
  cases e with
  | recvCb p =>
      obtain rfl := Except.ok.inj hn
      cases p with
      | none =>
          exact ⟨h.pcb, ⟨(by decide : stateConnected ≤ statePeerClosed), Int.le_refl _⟩, h.kind, h.size, h.fresh,
            h.stream, h.owned, h.returned, h.recved, h.freedLate⟩
      | some payload =>
          obtain ⟨hpos, hmax⟩ := hen.2 payload rfl
          exact lwipTcpRecv_keeps h hpos hmax
  | recv len late =>
      obtain ⟨c'', hc'', hinv⟩ := @lwipTcpReceive_keeps recent c len late h
      have hn : checkConnected recent c (lwipTcpReceive recent c len late) = .ok c' := hn
      rw [checkConnected_eq h, hc''] at hn
      exact Except.ok.inj hn ▸ hinv
  | read len late =>
      obtain ⟨c'', hc'', hinv⟩ := @lwipTcpReceive_keeps recent c len late h
      have hn : lwipTcpReceive recent c len late = .ok c' := hn
      rw [hc''] at hn
      exact Except.ok.inj hn ▸ hinv
  | send len available env =>
      have hn : checkConnected recent c (lwipTcpSend recent c len available env) = .ok c' := hn
      rw [checkConnected_eq h] at hn
      exact h.idle (lwipTcpSend_idle hn)
  | write len available env => exact h.idle (lwipTcpSend_idle hn)
  | settimeout t =>
      obtain rfl := Except.ok.inj hn
      have hset : StreamInv { c with socket := { c.socket with timeout := t } } :=
        ⟨h.pcb, h.state, h.kind, h.size, h.fresh, h.stream, h.owned, h.returned, h.recved, h.freedLate⟩
      exact hset.idle (.ends _ rfl)
  | turn env => exact h.turn hn
  | connectedCb | errCb _ | acceptCb _ | free | bind _ | listen _ | accept _ | connect _ _ | close _ =>
      exact absurd he (fun hh => hh)

end Step

/-- A connected socket that has received nothing yet. -/
structure JustConnected (c : Conn) : Prop where
  pcb : c.socket.pcb ≠ none
  state : c.socket.state = stateConnected
  incoming : c.socket.incoming = .null
  leftover : c.socket.leftoverCount = 0
  log : c.log = []

theorem JustConnected.streamInv {c : Conn} (h : JustConnected c) : StreamInv c where
  pcb := h.pcb
  state := by rw [h.state]; decide
  kind k hk := by rw [h.incoming] at hk; cases hk
  size p hp := by rw [h.incoming] at hp; cases hp
  fresh _ := h.leftover
  stream := by rw [rest_null h.incoming, h.log]; rfl
  owned := by rw [slot_null h.incoming, h.log]; rfl
  returned := by rw [h.log]; rfl
  recved := by rw [h.log]; rfl
  freedLate i p hi := by rw [h.log] at hi; cases hi

/-- What a connected socket has returned, and then the rest of the packet it holds, are the bytes of the
packets that it accepted, in order. The packets were freed in that order, each once and behind its last
byte, up to the one it holds; `tcp_recved` was told of each byte once. A refused delivery changes nothing,
and a read goes on. -/
theorem received_stream {recent : Bool} {start c : Conn} {es : List SockEvent} (hstart : JustConnected start)
    (hrun : ((sockets recent).restrict fun _ e => StreamEvent e).Run start es c) :
    returnedOf c.log <+: (acceptedOf c.log).flatten ∧
    returnedOf c.log ++ rest c.socket = (acceptedOf c.log).flatten ∧
    acceptedOf c.log = freedOf c.log ++ slot c.socket ∧ FreedLate c.log ∧
    recvedOf c.log = (returnedOf c.log).length ∧
    (∀ p c', lwipTcpRecv c p = (errBuf, c') → c' = c) ∧
    ∀ len late, ∃ c', lwipTcpReceive recent c len late = .ok c' := by
  have h : StreamInv c := by
    refine hrun.invariant (I := StreamInv) (fun u e v hu hs => ?_) hstart.streamInv
    obtain ⟨hstep, he⟩ := Machine.restrict_step.1 hs
    exact hu.step hstep he
  have hstream : returnedOf c.log ++ rest c.socket = (acceptedOf c.log).flatten := by
    rw [h.returned]
    exact h.stream
  refine ⟨⟨_, hstream⟩, hstream, h.owned, h.freedLate, ?_, ?_, ?_⟩
  · rw [h.returned]
    exact h.recved
  · intro p c' hp
    unfold lwipTcpRecv at hp
    split at hp
    · cases hp
    · split at hp
      · exact (Prod.mk.inj hp).2.symm
      · cases hp
  · intro len late
    obtain ⟨c', hc', -⟩ := @lwipTcpReceive_keeps recent c len late h
    exact ⟨c', hc'⟩

/-- Two packets are delivered, the second one twice, and read in pieces that end in the middle of the first
one, at its end, and in the second one. -/
theorem received_stream_two : ∃ c, returnedOf c.log = [1, 2, 3, 4, 5] ∧ rest c.socket = [6] ∧
    returnedOf c.log <+: (acceptedOf c.log).flatten ∧
    returnedOf c.log ++ rest c.socket = (acceptedOf c.log).flatten ∧
    acceptedOf c.log = freedOf c.log ++ slot c.socket ∧ FreedLate c.log ∧
    recvedOf c.log = (returnedOf c.log).length ∧
    (∀ p c', lwipTcpRecv c p = (errBuf, c') → c' = c) ∧
    ∀ len late, ∃ c', lwipTcpReceive true c len late = .ok c' := by
  have hrun : ((sockets true).restrict fun _ e => StreamEvent e).Run (lwipSocketAccepted none)
      [.recvCb (some [1, 2, 3]), .read 2 false, .recvCb (some [4, 5, 6]), .recv 0 false, .read 1 false,
        .recvCb (some [4, 5, 6]), .recv 2 false] _ :=
    .cons (Machine.restrict_step.2 ⟨⟨by decide, rfl⟩, trivial⟩)
      (.cons (Machine.restrict_step.2 ⟨⟨trivial, rfl⟩, trivial⟩)
        (.cons (Machine.restrict_step.2 ⟨⟨by decide, rfl⟩, trivial⟩)
          (.cons (Machine.restrict_step.2 ⟨⟨trivial, rfl⟩, trivial⟩)
            (.cons (Machine.restrict_step.2 ⟨⟨trivial, rfl⟩, trivial⟩)
              (.cons (Machine.restrict_step.2 ⟨⟨by decide, rfl⟩, trivial⟩)
                (.cons (Machine.restrict_step.2 ⟨⟨trivial, rfl⟩, trivial⟩) (.nil _)))))))
  exact ⟨_, by decide, by decide, received_stream ⟨by decide, rfl, rfl, rfl, rfl⟩ hrun⟩

end Minipython.Mods
