import Etherboot.Lib.Serial

set_option autoImplicit false

/-! # The TCP client (`tcp_transaction` in `core/nic.c`)

A connection on which the client sends a request and receives the answer. `tcp_transaction` is one
loop of jumps between two labels: `send_data`, which transmits what is in the buffer, and
`recv_data`, which waits for a segment. A turn of the machine is what happens from one wait to the
next, on a segment or a timeout. What `tcp_transmit` returns comes from outside, as part of the
event; a turn transmits at most once.

`long` has 32 bits. The round trip times that `tcp_transaction` keeps only say how long to wait, and
are left out. -/

namespace Tcp

open Memory

def FIN : Nat := 1
def SYN : Nat := 2
def RST : Nat := 4
def PSH : Nat := 8
def ACK : Nat := 16

/-- `TCP_MIN_WINDOW` and `TCP_MAX_WINDOW`. -/
def minWindow : Nat := 1500 - (20 + 64)

def maxWindow : Nat := 65535 - (20 + 64)

/-! ## A received segment, as it is in `nic.packet` -/

section Packet

variable (p : Store)

def ipLen : Nat := be16 p (14 + 2)

def seq : Nat := be32 p (14 + 20 + 4)

def ack : Nat := be32 p (14 + 20 + 8)

def ctrl : Nat := be16 p (14 + 20 + 12)

/-- `tcp->ctrl & htons(flag)` -/
def hasFlag (flag : Nat) : Bool := ctrl p &&& flag != 0

def headerSize : Nat := 20 + ((ctrl p >>> 10) &&& 0x3c)

/-- `payload`, which a header that is longer than the datagram makes negative. -/
def payloadLen : Int := (ipLen p : Int) - headerSize p

end Packet

/-! ## The state of a connection -/

inductive State where
  | closed
  | synRcvd
  | established
  | finWait1
  | finWait2
  deriving DecidableEq, Repr

/-- The functions `send` and `recv` that `tcp_transaction` is given. They keep their state behind one
    pointer; here what `send` uses (`α`) and what `recv` uses (`β`) are apart. -/
structure Callbacks (α β : Type) where
  /-- The bytes put in the buffer, when there is room for so many. -/
  send : Nat → α → List UInt8 × α
  /-- Called with a number of bytes, the packet, and where in it they begin. -/
  recv : Nat → Store → Nat → β → Bool × β

/-- The variables that say what is sent next; what can be sent is in `buf` behind the headers. -/
structure Sender (α : Type) where
  sendSeq : Nat
  canSend : Nat
  sentAll : Bool
  buf : Store
  out : α

/-- The variables for what is received. `received` is not in the source: all that `recv` was given. -/
structure Receiver (β : Type) where
  recvSeq : Nat
  user : β
  received : List UInt8

/-- A segment that was transmitted. -/
structure Sent where
  seq : Nat
  ack : Nat
  window : Nat
  ctrl : Nat
  data : List UInt8
  deriving DecidableEq, Repr

/-- `tcp_transaction` waits, or it has returned. -/
inductive Status where
  | waiting
  | returned (rc : Int)
  deriving DecidableEq, Repr

/-- The other variables of `tcp_transaction`. Not in the source: the segments sent, and the state in
    which a FIN ended the connection. -/
structure Conn (α β : Type) where
  snd : Sender α
  rcv : Receiver β
  state : State
  ctrl : Nat
  window : Nat
  lastAck : Nat
  retry : Int
  rc : Int
  status : Status
  sent : List Sent
  finIn : Option State

/-- What `await_reply` comes back with, and whether the next segment can be transmitted. -/
inductive Event where
  | timeout (sends : Bool)
  | packet (p : Store) (sends : Bool)

/-- `sizeof(struct iphdr) + sizeof(struct tcphdr)` -/
def dataOffset : Nat := 20 + 20

/-- `sizeof(buf)` -/
def bufSize : Nat := 128

variable {α β : Type}

/-! ## The request -/

/-- An acknowledgement of `consumed` bytes, and of the SYN if `synAck` is 1: what is left moves to the
    front of the buffer, and `send` is asked for more. -/
def Sender.acknowledge (cb : Callbacks α β) (s : Sender α) (consumed synAck : Nat) : Sender α :=
  let canSend := s.canSend - consumed
  let s :=
    { s with
      canSend := canSend
      sendSeq := (s.sendSeq + (consumed + synAck)) % 2 ^ 32
      buf :=
        if canSend ≠ 0 then s.buf.splice dataOffset (s.buf.slice (dataOffset + consumed) canSend)
        else s.buf }
  if s.sentAll then s
  else
    let moreData : Int := (bufSize : Int) - (dataOffset + canSend : Nat)
    if moreData > 0 then
      let (bytes, out) := cb.send moreData.toNat s.out
      { s with
        canSend := canSend + bytes.length
        sentAll := bytes.length == 0
        buf := s.buf.splice (dataOffset + canSend) bytes
        out := out }
    else { s with sentAll := decide (moreData = 0) }

namespace Conn

variable (cb : Callbacks α β) (c : Conn α β) (p : Store) (sends : Bool)

/-- `send_data` -/
def sendData : Conn α β :=
  let lastAck := if c.ctrl &&& ACK ≠ 0 then c.rcv.recvSeq else c.lastAck
  if sends then
    { c with
      lastAck := lastAck
      sent := c.sent ++ [⟨c.snd.sendSeq, c.rcv.recvSeq, c.window, c.ctrl,
        c.snd.buf.slice dataOffset c.snd.canSend⟩] }
  else { c with lastAck := lastAck, status := .returned 0 }

def close : Conn α β :=
  { c with ctrl := FIN ||| ACK, state := .finWait1, rc := 0 }.sendData sends

/-- `tcp_reset` of the segment received. -/
def tcpReset : Conn α β :=
  if hasFlag p RST = false ∧ sends = true then
    let seq := (seq p + ipLen p + (2 ^ 32 - headerSize p)) % 2 ^ 32
    let seq := if hasFlag p (SYN ||| FIN) then (seq + 1) % 2 ^ 32 else seq
    { c with sent := c.sent ++ [⟨if hasFlag p ACK then ack p else 0, seq, maxWindow, RST, []⟩] }
  else c

/-- A FIN is answered, and the connection is over. -/
def finish : Conn α β :=
  let ctrl :=
    match c.state with
    | .established => FIN ||| ACK
    | .finWait1 | .finWait2 => ACK
    | .closed | .synRcvd => RST
  let ok := sends ∧ c.state ∈ [.established, .finWait1, .finWait2] ∧ c.snd.canSend = 0
  { c with
    ctrl := ctrl
    sent :=
      if sends then
        c.sent ++ [⟨c.snd.sendSeq, (c.rcv.recvSeq + 1) % 2 ^ 32, c.window, ctrl, []⟩]
      else c.sent
    status := .returned (if ok then 1 else 0)
    finIn := some c.state }

/-- The end of a turn, behind the data of the segment. -/
def finishTurn : Conn α β :=
  if hasFlag p FIN then c.finish sends
  else if c.state = .closed ∧ hasFlag p SYN = true ∧ hasFlag p ACK = false then
    { c with
      rcv := { c.rcv with recvSeq := (seq p + 1) % 2 ^ 32 }
      state := .synRcvd
      ctrl := SYN ||| ACK ||| PSH }.sendData sends
  else
    let c :=
      if c.state = .closed ∧ hasFlag p SYN = true then
        { c with
          rcv := { c.rcv with recvSeq := (seq p + 1) % 2 ^ 32 }
          state := .established
          ctrl := PSH ||| ACK }
      else c
    if c.snd.canSend ≠ 0 ∨ payloadLen p ≠ 0 then c.sendData sends else c

/-- New data have been received and are acknowledged. -/
def acknowledgeData : Conn α β :=
  let inWindow := (c.window : Int) - 2 * minWindow > Serial.diff c.rcv.recvSeq c.lastAck
  { c with
    ctrl := if c.snd.canSend ≠ 0 then PSH ||| ACK else ACK
    window := if inWindow then c.window else min (c.window + minWindow) maxWindow }.sendData sends

/-- `consume_data` -/
def consumeData : Conn α β :=
  if payloadLen p > 0 ∧ c.state = .established then
    let oldBytes := Serial.diff c.rcv.recvSeq (seq p)
    if oldBytes ≥ 0 ∧ payloadLen p - oldBytes > 0 then
      let len := (payloadLen p - oldBytes).toNat
      let pos := 14 + headerSize p + oldBytes.toNat
      let (ok, user) := cb.recv len p pos c.rcv.user
      let c :=
        { c with
          rcv :=
            { recvSeq := (c.rcv.recvSeq + len) % 2 ^ 32, user := user,
              received := c.rcv.received ++ p.slice pos len } }
      if ok = false then c.close sends
      else if hasFlag p FIN = false then c.acknowledgeData sends
      else c.finishTurn p sends
    else { c with window := max (c.window / 2) (2 * minWindow) }.finishTurn p sends
  else c.finishTurn p sends

/-- `syn_ack` -/
def synAck : Nat := if c.state = .closed ∨ c.state = .synRcvd then 1 else 0

/-- The number of bytes that a segment acknowledges. -/
def consumed : Int :=
  Serial.diff (ack p) ((c.snd.sendSeq + c.synAck) % 2 ^ 32)

/-- `got_data` -/
def gotData : Conn α β :=
  let d : Conn α β := { c with retry := 10 }
  if hasFlag p ACK then
    if c.state = .finWait1 ∨ c.state = .finWait2 then
      consumeData cb { d with state := .finWait2, ctrl := ACK } p sends
    else if c.consumed p < 0 ∨ c.consumed p > c.snd.canSend then d.tcpReset p sends
    else
      let d := { d with snd := c.snd.acknowledge cb (c.consumed p).toNat c.synAck }
      if c.state = .synRcvd then
        consumeData cb { d with state := .established, ctrl := PSH ||| ACK } p sends
      else if hasFlag p RST then { d with status := .returned 0 }
      else consumeData cb d p sends
  else if hasFlag p RST then
    if c.state = .closed then d else { d with status := .returned 0 }
  else consumeData cb d p sends

def timedOut : Conn α β :=
  match c.state with
  | .established => c.close sends
  | .finWait1 | .finWait2 => { c with status := .returned c.rc }
  | .closed | .synRcvd =>
    let c : Conn α β := { c with retry := c.retry - 1 }
    if c.retry ≤ 0 then
      { c with
        sent :=
          if c.state = .synRcvd ∧ sends = true then
            c.sent ++ [⟨c.snd.sendSeq, 0, c.window, RST, []⟩]
          else c.sent
        status := .returned 0 }
    else c.sendData sends

def step (e : Event) : Conn α β :=
  if c.status = .waiting then
    match e with
    | .timeout sends => c.timedOut sends
    | .packet p sends => c.gotData cb p sends
  else c

/-- The connection after its SYN. The buffer's contents and `sendSeq`, which is the time, are
    arbitrary. -/
def start (sendSeq : Nat) (buf : Store) (out : α) (user : β) (sends : Bool) : Conn α β :=
  Conn.sendData
    { snd := { sendSeq := sendSeq % 2 ^ 32, canSend := 0, sentAll := false, buf := buf, out := out }
      rcv := { recvSeq := 0, user := user, received := [] }
      state := .closed, ctrl := SYN, window := 3 * minWindow, lastAck := 0, retry := 60 / 3, rc := 1
      status := .waiting, sent := [], finIn := none } sends

/-! ## What a turn changes -/

section Frame

variable (cb : Callbacks α β) (c : Conn α β) (p : Store) (sends : Bool)

theorem step_timeout (h : c.status = .waiting) : c.step cb (.timeout sends) = c.timedOut sends :=
  if_pos h

theorem step_packet (h : c.status = .waiting) : c.step cb (.packet p sends) = c.gotData cb p sends :=
  if_pos h

theorem step_returned (h : c.status ≠ .waiting) (e : Event) : c.step cb e = c := if_neg h

@[simp] theorem sendData_snd : (c.sendData sends).snd = c.snd := by cases sends <;> rfl

@[simp] theorem sendData_rcv : (c.sendData sends).rcv = c.rcv := by cases sends <;> rfl

@[simp] theorem sendData_state : (c.sendData sends).state = c.state := by cases sends <;> rfl

@[simp] theorem sendData_finIn : (c.sendData sends).finIn = c.finIn := by cases sends <;> rfl

@[simp] theorem close_snd : (c.close sends).snd = c.snd := sendData_snd ..

@[simp] theorem close_rcv : (c.close sends).rcv = c.rcv := sendData_rcv ..

@[simp] theorem close_state : (c.close sends).state = .finWait1 := sendData_state ..

@[simp] theorem acknowledgeData_snd : (c.acknowledgeData sends).snd = c.snd := sendData_snd ..

@[simp] theorem acknowledgeData_rcv : (c.acknowledgeData sends).rcv = c.rcv := sendData_rcv ..

@[simp] theorem acknowledgeData_state : (c.acknowledgeData sends).state = c.state := sendData_state ..

@[simp] theorem tcpReset_snd : (c.tcpReset p sends).snd = c.snd := by unfold tcpReset; split <;> rfl

@[simp] theorem tcpReset_rcv : (c.tcpReset p sends).rcv = c.rcv := by unfold tcpReset; split <;> rfl

@[simp] theorem tcpReset_state : (c.tcpReset p sends).state = c.state := by
  unfold tcpReset; split <;> rfl

@[simp] theorem finishTurn_snd : (c.finishTurn p sends).snd = c.snd := by
  unfold finishTurn
  split
  · rfl
  · split
    · exact sendData_snd ..
    · simp only
      split <;> split <;> simp

@[simp] theorem consumeData_snd : (consumeData cb c p sends).snd = c.snd := by
  unfold consumeData
  split
  · simp only
    split
    · split
      · simp
      · split <;> simp
    · simp
  · simp

/-- Outside of `CLOSED` the end of a turn stays in its state. -/
theorem finishTurn_state (h : c.state ≠ .closed) : (c.finishTurn p sends).state = c.state := by
  unfold finishTurn
  split
  · rfl
  · simp only [h, false_and, if_false]
    split <;> simp

/-- Data are only consumed in `ESTABLISHED`. -/
theorem consumeData_of_ne (h : c.state ≠ .established) :
    consumeData cb c p sends = c.finishTurn p sends := by
  rw [consumeData, if_neg (fun hdata => h hdata.2)]

/-- From `ESTABLISHED` the connection stays there or is closed. -/
theorem consumeData_established (h : c.state = .established) :
    (consumeData cb c p sends).state = .established ∨ (consumeData cb c p sends).state = .finWait1 := by
  have hfinish : ∀ d : Conn α β, d.state = .established →
      (d.finishTurn p sends).state = .established := fun d hd =>
    (finishTurn_state d p sends (by rw [hd]; decide)).trans hd
  unfold consumeData
  split
  · simp only
    split
    · split
      · exact .inr (close_state ..)
      · split
        · exact .inl ((acknowledgeData_state ..).trans h)
        · exact .inl (hfinish _ h)
    · exact .inl (hfinish _ h)
  · exact .inl (hfinish _ h)

/-- What is transmitted carries nothing, or what can be sent at its place. -/
def Transmits (c c' : Conn α β) : Prop :=
  c'.sent = c.sent ∨ ∃ t, c'.sent = c.sent ++ [t] ∧
    (t.data = [] ∨
      t.seq = c.snd.sendSeq ∧ t.data = c.snd.buf.slice dataOffset c.snd.canSend)

theorem sendData_transmits : c.Transmits (c.sendData sends) := by
  cases sends with
  | false => exact .inl rfl
  | true => exact .inr ⟨_, rfl, .inr ⟨rfl, rfl⟩⟩

theorem tcpReset_transmits : c.Transmits (c.tcpReset p sends) := by
  unfold tcpReset
  split
  · exact .inr ⟨_, rfl, .inl rfl⟩
  · exact .inl rfl

theorem finish_transmits : c.Transmits (c.finish sends) := by
  cases sends with
  | false => exact .inl rfl
  | true => exact .inr ⟨_, rfl, .inl rfl⟩

theorem finishTurn_transmits : c.Transmits (c.finishTurn p sends) := by
  unfold finishTurn
  split
  · exact finish_transmits ..
  · split
    · exact sendData_transmits { c with rcv := _, state := _, ctrl := _ } sends
    · simp only
      split <;> split
      · exact sendData_transmits { c with rcv := _, state := _, ctrl := _ } sends
      · exact .inl rfl
      · exact sendData_transmits ..
      · exact .inl rfl

theorem consumeData_transmits : c.Transmits (consumeData cb c p sends) := by
  unfold consumeData
  split
  · simp only
    split
    · split
      · exact sendData_transmits { c with rcv := _, ctrl := _, state := _, rc := _ } sends
      · split
        · exact sendData_transmits { c with rcv := _, ctrl := _, window := _ } sends
        · exact finishTurn_transmits { c with rcv := _ } p sends
    · exact finishTurn_transmits { c with window := _ } p sends
  · exact finishTurn_transmits ..

end Frame

/-- A segment carries an acknowledgement that the client accepts. -/
structure Acks : Prop where
  ack : hasFlag p ACK = true
  not_closing : c.state ≠ .finWait1 ∧ c.state ≠ .finWait2
  consumed_nonneg : 0 ≤ c.consumed p
  consumed_le : c.consumed p ≤ c.snd.canSend

/-- The sender behind an acknowledgement. -/
abbrev acked : Sender α :=
  c.snd.acknowledge cb (c.consumed p).toNat c.synAck

/-- How a segment gets to its data: in a connection that is being closed, with an acknowledgement that
    is accepted, or without one. -/
inductive Taken (cb : Callbacks α β) (c : Conn α β) (p : Store) : Conn α β → Prop where
  | closing (state : c.state = .finWait1 ∨ c.state = .finWait2) :
      Taken cb c p { c with retry := 10, state := .finWait2, ctrl := ACK }
  | opening (state : c.state = .synRcvd) (acks : c.Acks p) :
      Taken cb c p
        { c with retry := 10, snd := c.acked cb p, state := .established, ctrl := PSH ||| ACK }
  | acked (state : c.state ≠ .synRcvd) (acks : c.Acks p) (rst : hasFlag p RST = false) :
      Taken cb c p { c with retry := 10, snd := c.acked cb p }
  | plain (ack : hasFlag p ACK = false) (rst : hasFlag p RST = false) :
      Taken cb c p { c with retry := 10 }

/-- A segment that does not get to its data leaves the connection as it was, or ends it by an RST. -/
structure Refused (c' : Conn α β) : Prop where
  rcv : c'.rcv = c.rcv
  state : c'.state = c.state
  ctrl : c'.ctrl = c.ctrl
  finIn : c'.finIn = c.finIn
  transmits : c.Transmits c'
  sent : ∀ t ∈ c'.sent, t ∈ c.sent ∨ t.ctrl = RST
  snd : (¬ c.Acks p ∧ c'.snd = c.snd) ∨ (c.Acks p ∧ c'.snd = c.acked cb p ∧ c'.status = .returned 0)
  status : c'.status = c.status ∨
    c'.status = .returned 0 ∧ hasFlag p RST = true ∧ (hasFlag p ACK = true → c.Acks p)

/-- An acknowledgement that is out of range is answered by a reset. -/
theorem tcpReset_refused {c : Conn α β} {p : Store}
    (hacks : ¬ c.Acks p) : Refused cb c p ({ c with retry := 10 }.tcpReset p sends) := by
  have htransmits := tcpReset_transmits { c with retry := 10 } p sends
  refine ⟨by simp, by simp, ?_, ?_, htransmits, ?_, .inl ⟨hacks, by simp⟩, ?_⟩
  · unfold tcpReset; split <;> rfl
  · unfold tcpReset; split <;> rfl
  · intro t ht
    unfold tcpReset at ht
    split at ht
    · rcases List.mem_append.mp ht with ht | ht
      · exact .inl ht
      · rw [List.mem_singleton.mp ht]
        exact .inr rfl
    · exact .inl ht
  · unfold tcpReset; split <;> exact .inl rfl

/-- **What a segment does**: it is refused, or its data are consumed. -/
theorem gotData_cases :
    Refused cb c p (c.gotData cb p sends) ∨
      ∃ c', Taken cb c p c' ∧ c.gotData cb p sends = consumeData cb c' p sends := by
  unfold gotData
  by_cases hack : hasFlag p ACK = true
  · rw [if_pos hack]
    by_cases hclosing : c.state = .finWait1 ∨ c.state = .finWait2
    · rw [if_pos hclosing]
      exact .inr ⟨_, .closing hclosing, rfl⟩
    · rw [if_neg hclosing]
      by_cases hbad : c.consumed p < 0 ∨ c.consumed p > c.snd.canSend
      · rw [if_pos hbad]
        exact .inl (tcpReset_refused cb sends (fun h => by
          have := h.consumed_nonneg
          have := h.consumed_le
          omega))
      · have hacks : c.Acks p := ⟨hack, not_or.mp hclosing, by omega, by omega⟩
        rw [if_neg hbad]
        by_cases hopen : c.state = .synRcvd
        · rw [if_pos hopen]
          exact .inr ⟨_, .opening hopen hacks, rfl⟩
        · rw [if_neg hopen]
          by_cases hrst : hasFlag p RST = true
          · rw [if_pos hrst]
            exact .inl ⟨rfl, rfl, rfl, rfl, .inl rfl, fun _ => .inl, .inr ⟨hacks, rfl, rfl⟩,
              .inr ⟨rfl, hrst, fun _ => hacks⟩⟩
          · rw [if_neg hrst]
            exact .inr ⟨_, .acked hopen hacks (by simpa using hrst), rfl⟩
  · have hacks : ¬ c.Acks p := fun h => hack h.ack
    rw [if_neg hack]
    by_cases hrst : hasFlag p RST = true
    · rw [if_pos hrst]
      refine .inl ?_
      by_cases hclosed : c.state = .closed
      · rw [if_pos hclosed]
        exact ⟨rfl, rfl, rfl, rfl, .inl rfl, fun _ => .inl, .inl ⟨hacks, rfl⟩, .inl rfl⟩
      · rw [if_neg hclosed]
        exact ⟨rfl, rfl, rfl, rfl, .inl rfl, fun _ => .inl, .inl ⟨hacks, rfl⟩,
          .inr ⟨rfl, hrst, fun h => absurd h hack⟩⟩
    · rw [if_neg hrst]
      exact .inr ⟨_, .plain (by simpa using hack) (by simpa using hrst), rfl⟩

theorem gotData_snd :
    (c.Acks p ∧ (c.gotData cb p sends).snd = c.acked cb p) ∨
      (¬ c.Acks p ∧ (c.gotData cb p sends).snd = c.snd) := by
  rcases gotData_cases cb c p sends with href | ⟨c', htaken, heq⟩
  · rcases href.snd with hsame | ⟨hacks, hsnd, -⟩
    · exact .inr hsame
    · exact .inl ⟨hacks, hsnd⟩
  · rw [heq, consumeData_snd]
    cases htaken with
    | closing hstate => exact .inr ⟨fun h => by have := h.not_closing; tauto, rfl⟩
    | opening _ hacks => exact .inl ⟨hacks, rfl⟩
    | acked _ hacks _ => exact .inl ⟨hacks, rfl⟩
    | plain hack _ => exact .inr ⟨fun h => by simp [h.ack] at hack, rfl⟩

/-- A timeout closes an established connection, and leaves others where they are. -/
theorem timedOut_cases :
    (c.timedOut sends).snd = c.snd ∧ (c.timedOut sends).rcv = c.rcv ∧
      (c.timedOut sends).finIn = c.finIn ∧ c.Transmits (c.timedOut sends) ∧
      (c.timedOut sends).state = if c.state = .established then .finWait1 else c.state := by
  unfold timedOut
  cases c.state with
  | established =>
    exact ⟨close_snd .., close_rcv .., sendData_finIn ..,
      sendData_transmits { c with ctrl := _, state := _, rc := _ } sends, close_state ..⟩
  | finWait1 => exact ⟨rfl, rfl, rfl, .inl rfl, rfl⟩
  | finWait2 => exact ⟨rfl, rfl, rfl, .inl rfl, rfl⟩
  | closed =>
    simp only
    split
    · exact ⟨rfl, rfl, rfl, .inl (by simp), rfl⟩
    · exact ⟨sendData_snd .., sendData_rcv .., sendData_finIn ..,
        sendData_transmits { c with retry := _, state := _ } sends, sendData_state ..⟩
  | synRcvd =>
    simp only
    split
    · refine ⟨rfl, rfl, rfl, ?_, rfl⟩
      cases sends with
      | false => exact .inl (by simp)
      | true => exact .inr ⟨⟨c.snd.sendSeq, 0, c.window, RST, []⟩, by simp, .inl rfl⟩
    · exact ⟨sendData_snd .., sendData_rcv .., sendData_finIn ..,
        sendData_transmits { c with retry := _, state := _ } sends, sendData_state ..⟩

end Conn

end Tcp
