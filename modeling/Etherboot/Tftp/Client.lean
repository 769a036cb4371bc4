import Etherboot.Lib.Memory
import Etherboot.Net.Address

set_option autoImplicit false

/-! # The TFTP client (`tftp` and `tftp_block` in `core/nic.c`)

`tftp_block` waits for one data block of the file being fetched. It keeps its state in static
variables from call to call (`Statics`) and reacts to two events: a packet for its local port, or a
timeout of `await_reply`. `tftp` calls it until the file has come to its end and passes each block on
to a function `fnc`.

`onPacket` and `onTimeout` are the two turns of the loop of `tftp_block`, `Client.step` runs them
inside `tftp`. What `udp_transmit` and `fnc` return comes from outside, as part of the event. The
client's state also keeps a log of what it received and sent, for the specifications.

The scan of an option acknowledgement is a byte program on the UDP payload. It looks for the ends of
strings and does not stop at the end of the packet; a scan that has gone through as many bytes as
there are addresses never ends. -/

namespace Tftp

open Memory
open Text (isDigit)
open Prog (readByte writeByte)

def tftpPort : UInt16 := 69
def defaultsizePacket : Nat := 512
def maxPacket : Nat := 1432
def maxTftpRetries : Nat := 20

def opData : Nat := 3
def opError : Nat := 5
def opOack : Nat := 6

/-- The contents of `xmit`; `xmitlen` goes with it. -/
inductive Xmit where
  | rrq (name : List UInt8) (blksize : UInt16)
  | ack (block : UInt16)
  | error (errcode : UInt16) (errmsg : String)
  deriving DecidableEq, Repr

/-- `struct tftpreq_info_t`. -/
structure Request where
  name : List UInt8
  port : UInt16
  blksize : UInt16
  deriving DecidableEq, Repr

/-- The static variables of `tftp_block`. `blksize` is an `int`. -/
structure Statics where
  lport : UInt16
  rport : UInt16
  xmit : Xmit
  blockidx : UInt16
  retry : UInt16
  blksize : Int
  deriving DecidableEq, Repr

/-- A UDP packet as `nic.packet` holds it: the header fields the client reads, and the bytes from the
    UDP payload on, those behind its end included. -/
structure Packet where
  src : UInt16
  dst : UInt16
  udpLen : UInt16
  body : Store

def Packet.opcode (p : Packet) : Nat := be16 p.body 0

/-- `ntohs(udp.len) - sizeof(struct udphdr) - sizeof(opcode)`, in 16 bits. -/
def Packet.recvlen (p : Packet) : Nat := (p.udpLen.toNat + (65536 - 10)) % 65536

/-- `struct tftpblk_info_t`. -/
structure BlockInfo where
  data : Store
  block : Nat
  len : Nat
  eof : Bool

/-- A call of `udp_transmit` that went out. -/
structure Sent where
  src : UInt16
  dst : UInt16
  xmit : Xmit
  deriving DecidableEq, Repr

/-! ## The option acknowledgement -/

def scanLimit : Nat := 2 ^ 32

/-- `c & ~0x20`. -/
def upcase (c : UInt8) : UInt8 := c &&& 0xdf

/-- `strcasecmp(a, p) == 0` for a text `a` without zeros. -/
def strcasecmp : List UInt8 → Nat → Prog Bool
  | [], p => do
      let b ← readByte p
      pure (decide (upcase b = 0))
  | a :: as, p => do
      let b ← readByte p
      if b ≠ 0 ∧ upcase a = upcase b then strcasecmp as (p + 1)
      else pure (decide (upcase a = upcase b))

/-- `strtoul` to base 10: the number and the index of the first byte that is no digit. -/
def strtoul : Nat → Nat → Nat → Prog (Option (Nat × Nat))
  | 0, _, _ => pure none
  | fuel + 1, ret, p => do
      let c ← readByte p
      if isDigit c then strtoul fuel ((ret * 10 + (c.toNat - 48)) % 2 ^ 32) (p + 1)
      else pure (some (ret, p))

/-- `while (*(p++)) {}`. -/
def skipString : Nat → Nat → Prog (Option Nat)
  | 0, _ => pure none
  | fuel + 1, p => do
      let c ← readByte p
      if c = 0 then pure (some (p + 1)) else skipString fuel (p + 1)

/-- An `unsigned long` assigned to an `int`. -/
def toInt (v : Nat) : Int := if v < 2 ^ 31 then v else (v : Int) - 2 ^ 32

def blksizeText : List UInt8 := [0x62, 0x6c, 0x6b, 0x73, 0x69, 0x7a, 0x65]

/-- `strcasecmp("blksize", p) == 0 && p[7] == 0`. -/
def isBlksize (p : Nat) : Prog Bool := do
  let same ← strcasecmp blksizeText p
  if same then
    let z ← readByte (p + 7)
    pure (decide (z = 0))
  else pure false

/-- The option at `p`: the new `blksize`, and where the inner loop that skips a string starts. -/
def oackOption (blksize : Int) (p : Nat) : Prog (Option (Int × Nat)) := do
  let hit ← isBlksize p
  if hit then
    match ← strtoul scanLimit 0 (p + 8) with
    | none => pure none
    | some (v, q) => pure (some (toInt v, q + 1))
  else pure (some (blksize, p))

/-- `while (p < e)`, `e` lying ten bytes before the end of the payload. -/
def oackLoop (recvlen : Nat) : Nat → Int → Nat → Prog (Option Int)
  | 0, _, _ => pure none
  | fuel + 1, blksize, p =>
    if p + 10 < 2 + recvlen then do
      match ← oackOption blksize p with
      | none => pure none
      | some (blksize, q) =>
        match ← skipString scanLimit q with
        | none => pure none
        | some p => oackLoop recvlen fuel blksize p
    else pure (some blksize)

/-- The work on an `OACK` up to the test of `blksize`, `none` if a scan does not end. The packet's
    last byte is forced to zero in any case; an acknowledgement that comes too late has no other
    effect. -/
def oackBlksize (inTime : Bool) (recvlen : Nat) (blksize : Int) : Prog (Option Int) := do
  writeByte (recvlen + 1) 0
  if inTime ∧ recvlen ≤ maxPacket then oackLoop recvlen scanLimit blksize 2
  else pure (some blksize)

/-! ## The two turns of the loop -/

/-- How a turn ends: `tftp_block` goes on waiting, returns without a block, returns 1 with a block,
    or never gets that far. -/
inductive Outcome where
  | wait
  | ret (rc : Int)
  | block (b : BlockInfo)
  | hung

structure Turn where
  st : Statics
  sent : List Sent
  out : Outcome

variable (s : Statics)

/-- Send `xmit` from the current ports. -/
def transmit (out : Outcome) : Turn := ⟨s, [⟨s.lport, s.rport, s.xmit⟩], out⟩

/-- The end of the loop body. -/
def sendAck (out : Outcome) : Turn :=
  transmit { s with xmit := .ack s.blockidx } out

/-- `case TFTP_OACK`. -/
def onOack (request : Option Request) (p : Packet) : Turn :=
  match request with
  | none => sendAck s .wait
  | some rq =>
    if s.blockidx ≠ 0 then sendAck s .wait
    else
      match ((oackBlksize true p.recvlen s.blksize).run p.body).1 with
      | none => ⟨s, [], .hung⟩
      | some blksize =>
        let s := { s with blksize := blksize }
        if blksize < defaultsizePacket ∨ blksize > rq.blksize.toNat then
          transmit { s with xmit := .error 8 "RFC1782 error" } (.ret 0)
        else sendAck s .wait

/-- `case TFTP_DATA`. The comparison with `blksize + sizeof(block)` is unsigned. -/
def onData (p : Packet) : Turn :=
  if be16 p.body 2 ≠ (s.blockidx + 1).toNat then sendAck s .wait
  else if p.recvlen > ((s.blksize + 2) % 2 ^ 32).toNat then sendAck s .wait
  else
    let len := (p.recvlen + (2 ^ 32 - 2)) % 2 ^ 32
    let eof := decide (((len % 65536 : Nat) : Int) < s.blksize)
    let s := { s with blockidx := s.blockidx + 1, blksize := if eof then 0 else s.blksize }
    sendAck s (.block ⟨fun i => p.body (4 + i), s.blockidx.toNat, len, eof⟩)

/-- The static variables once a packet has been received. -/
def Statics.noted (p : Packet) : Statics := { s with rport := p.src, retry := 0 }

@[simp] theorem Statics.noted_blockidx (p : Packet) :
    (s.noted p).blockidx = s.blockidx := rfl

@[simp] theorem Statics.noted_blksize (p : Packet) :
    (s.noted p).blksize = s.blksize := rfl

/-- A packet has been received. -/
def onPacket (request : Option Request) (p : Packet) : Turn :=
  let s := s.noted p
  if p.opcode = opError then ⟨s, [], .ret (-(be16 p.body 2 : Int))⟩
  else if p.opcode = opOack then onOack s request p
  else if p.opcode = opData then onData s p
  else sendAck s .wait

/-- No packet has been received; `txOk` is what `udp_transmit` returns. -/
def onTimeout (txOk : Bool) : Turn :=
  let s' := { s with retry := s.retry + 1 }
  if s.retry.toNat > maxTftpRetries then ⟨s', [], .ret 0⟩
  else
    let s' := { s' with lport := if s.blockidx = 0 then s.lport + 1 else s.lport }
    if txOk then transmit s' .wait else ⟨s', [], .ret 0⟩

/-- The part of `tftp_block` for a new request. -/
def newRequest (rq : Request) (txOk : Bool) : Turn :=
  let s := { s with xmit := .rrq rq.name rq.blksize, blockidx := 0, retry := 0,
                    blksize := defaultsizePacket, lport := s.lport + 1, rport := rq.port }
  if txOk then transmit s .wait else ⟨s, [], .ret 0⟩

/-! ## The download -/

inductive Status where
  | waiting
  | returned (rc : Int)
  | hung
  deriving DecidableEq, Repr

/-- What the log records: a packet was received on port `lport`; or one was sent, `count` blocks
    having been received by then. -/
inductive Act where
  | received (lport : UInt16)
  | sent (count : Nat) (m : Sent)
  deriving DecidableEq, Repr

/-- A call of `tftp` in progress: `request` is set in the first call of `tftp_block` only, `calls` are
    the calls of `fnc` so far. -/
structure Client where
  st : Statics
  request : Option Request
  status : Status
  calls : List BlockInfo
  log : List Act

/-- The block a turn has received. -/
def Outcome.delivered : Outcome → List BlockInfo
  | .block b => [b]
  | _ => []

/-- Where `tftp` stands after a turn; `rc` is what `fnc` returns if it is called. -/
def Turn.status (t : Turn) (rc : Int) : Status :=
  match t.out with
  | .wait => .waiting
  | .ret rc => .returned rc
  | .hung => .hung
  | .block b =>
    if rc ≤ 0 then .returned rc
    else if b.eof then .returned rc
    else if t.st.blksize = 0 then .returned 0
    else .waiting

variable (c : Client)

/-- One turn of the loop of `tftp_block`. A block counts as received before its acknowledgement is
    sent. -/
def Client.turn (t : Turn) (rc : Int) : Client where
  st := t.st
  request := if t.out.delivered.isEmpty then c.request else none
  status := t.status rc
  calls := c.calls ++ t.out.delivered
  log := c.log ++ t.sent.map (.sent (c.calls.length + t.out.delivered.length))

inductive Event where
  | timeout (txOk : Bool)
  | packet (p : Packet) (rc : Int)

/-- `await_tftp` takes a packet for the client's current port only. -/
def Client.step (e : Event) : Client :=
  if c.status ≠ .waiting then c
  else
    match e with
    | .timeout txOk => c.turn (onTimeout c.st txOk) 0
    | .packet p rc =>
      if p.dst ≠ c.st.lport then c
      else Client.turn { c with log := c.log ++ [.received c.st.lport] }
        (onPacket c.st c.request p) rc

/-- `tftp(name, fnc)`, called with any values in the static variables. -/
def tftpRequest (name : List UInt8) : Request := ⟨name, tftpPort, UInt16.ofNat maxPacket⟩

def Client.start (name : List UInt8) (txOk : Bool) : Client :=
  Client.turn ⟨s, some (tftpRequest name), .waiting, [], []⟩ (newRequest s (tftpRequest name) txOk) 0

def Client.run (es : List Event) : Client := es.foldl Client.step c

/-! ## What a step can do -/

variable {p : Packet}

theorem onPacket_opError (h : p.opcode = opError) (s : Statics) (request : Option Request) :
    onPacket s request p = ⟨s.noted p, [], .ret (-(be16 p.body 2 : Int))⟩ := by
  simp [onPacket, h]

theorem onPacket_opOack (h : p.opcode = opOack) (s : Statics)
    (request : Option Request) : onPacket s request p = onOack (s.noted p) request p := by
  simp [onPacket, h, opError, opOack]

theorem onPacket_opData (h : p.opcode = opData) (s : Statics)
    (request : Option Request) : onPacket s request p = onData (s.noted p) p := by
  simp [onPacket, h, opError, opOack, opData]

/-- What a timeout does: it gives up, it fails to send, or it repeats `xmit`, from a new port if
    `blockidx` is 0. -/
theorem onTimeout_cases (txOk : Bool) :
    ((∃ rc, (onTimeout s txOk).out = .ret rc) ∧ (onTimeout s txOk).sent = [] ∧
        (maxTftpRetries < s.retry.toNat ∨ txOk = false)) ∨
    (s.retry.toNat ≤ maxTftpRetries ∧ txOk = true ∧
      onTimeout s txOk = transmit { s with
        retry := s.retry + 1, lport := if s.blockidx = 0 then s.lport + 1 else s.lport } .wait) := by
  unfold onTimeout
  by_cases hretry : s.retry.toNat > maxTftpRetries
  · rw [if_pos hretry]
    exact Or.inl ⟨⟨0, rfl⟩, rfl, Or.inl hretry⟩
  · rw [if_neg hretry]
    cases txOk with
    | true => exact Or.inr ⟨by omega, rfl, rfl⟩
    | false => exact Or.inl ⟨⟨0, rfl⟩, rfl, Or.inr rfl⟩

/-- The client, its log extended by a reception on its current port. -/
def Client.receive : Client := { c with log := c.log ++ [.received c.st.lport] }

theorem Client.step_timeout {c : Client} (h : c.status = .waiting) (txOk : Bool) :
    c.step (.timeout txOk) = c.turn (onTimeout c.st txOk) 0 := by
  rw [Client.step, if_neg (not_not.mpr h)]

theorem Client.step_packet {c : Client} (h : c.status = .waiting) (hp : p.dst = c.st.lport) (rc : Int) :
    c.step (.packet p rc) = c.receive.turn (onPacket c.st c.request p) rc := by
  simp [Client.step, Client.receive, h, hp]

/-- Everything a step can do: nothing, or a turn of the loop on a timeout or a packet. -/
theorem Client.step_cases (e : Event) :
    (c.step e = c ∧ (c.status ≠ .waiting ∨ ∃ p rc, e = .packet p rc)) ∨
    (c.status = .waiting ∧ ∃ txOk, e = .timeout txOk ∧ c.step e = c.turn (onTimeout c.st txOk) 0) ∨
    (c.status = .waiting ∧ ∃ p rc, e = .packet p rc ∧
      c.step e = c.receive.turn (onPacket c.st c.request p) rc) := by
  by_cases hwait : c.status = .waiting
  · cases e with
    | timeout txOk => exact Or.inr (Or.inl ⟨hwait, txOk, rfl, Client.step_timeout hwait txOk⟩)
    | packet p rc =>
      by_cases hp : p.dst = c.st.lport
      · exact Or.inr (Or.inr ⟨hwait, p, rc, rfl, Client.step_packet hwait hp rc⟩)
      · refine Or.inl ⟨?_, Or.inr ⟨p, rc, rfl⟩⟩
        rw [Client.step, if_neg (not_not.mpr hwait)]
        exact if_pos hp
  · refine Or.inl ⟨?_, Or.inl hwait⟩
    exact if_pos hwait

/-- The log only grows, and so do the calls of `fnc`. -/
theorem Client.step_prefix (e : Event) :
    c.log <+: (c.step e).log ∧ c.calls <+: (c.step e).calls := by
  rcases c.step_cases e with ⟨hstep, -⟩ | ⟨-, txOk, -, hstep⟩ | ⟨-, p, rc, -, hstep⟩
  · rw [hstep]
    exact ⟨List.prefix_rfl, List.prefix_rfl⟩
  · rw [hstep]
    exact ⟨List.prefix_append _ _, List.prefix_append _ _⟩
  · rw [hstep]
    refine ⟨?_, List.prefix_append _ _⟩
    exact (List.prefix_append c.log [.received c.st.lport]).trans (List.prefix_append _ _)

end Tftp
