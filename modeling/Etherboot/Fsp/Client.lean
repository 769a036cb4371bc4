import Etherboot.Lib.Memory
import Etherboot.Lib.Transition

set_option autoImplicit false

/-! # The FSP client (`core/proto_fsp.c`)

`proto_fsp` asks for the size of a file, then for its contents piece by piece, and passes each piece
on to `info->fnc`. It keeps the last byte back: when a reply brings that byte alone, the client says
goodbye to the server and passes the byte on, as the end of the file, when the goodbye is answered.

Every turn of the loop sends a request with a new sequence number and waits for a reply. Without one,
or with one that is not for this request, the next turn sends the request again. The client is a
machine on events, one for each turn. What `udp_transmit`, `random` and `fnc` return comes from outside,
as part of the event. The state also keeps a log of the requests sent and of the calls of `fnc`. -/

namespace Fsp

open Memory

def ccGetFile : UInt8 := 0x42
def ccBye : UInt8 := 0x4A
def ccErr : UInt8 := 0x40
def ccStat : UInt8 := 0x4D

/-- `FSP_MAXFILENAME` -/
def maxFilename : Nat := 255

/-- `FSP_MAXPAYLOAD` -/
def maxPayload : Nat := 1500 - (20 + 8 + 12)

/-- `struct fsp_request` from the FSP header on. `key` and `seq` are words as they lie in memory. -/
structure Request where
  cmd : UInt8
  sum : UInt8
  key : UInt16
  seq : UInt16
  len : Nat
  pos : Nat
  data : List UInt8
  deriving DecidableEq, Repr

/-- A call of `info->fnc`; its length is that of the data. -/
structure Call where
  data : List UInt8
  block : Nat
  eof : Bool
  deriving DecidableEq, Repr

inductive Status where
  | waiting
  | returned (rc : Int)
  deriving DecidableEq, Repr

structure Config where
  clientIp : Nat
  localPort : UInt16

/-- The variables of `proto_fsp`, and the logs. -/
structure Client where
  cfg : Config
  filepos : Nat
  filelength : Nat
  request : Request
  block : Nat
  status : Status
  calls : List Call
  sent : List Request

/-- A UDP packet in `nic.packet`: the header fields that are read, and the bytes from the UDP payload
    on, those behind its end included. -/
structure Packet where
  ipDest : Nat
  dst : UInt16
  udpLen : UInt16
  body : Store

/-! ## Requests -/

/-- The bytes of a request. -/
def Request.bytes (r : Request) : List UInt8 :=
  [r.cmd, r.sum] ++ le16Bytes r.key.toNat ++ le16Bytes r.seq.toNat ++ be16Bytes r.len ++
    be32Bytes r.pos ++ r.data

/-- The request for a position, with its checksum: the bytes and their number, folded once. -/
def Request.prepare (r : Request) (pos : Nat) (seq : UInt16) : Request :=
  let r := { r with pos := pos, seq := seq, sum := 0 }
  let sum := r.bytes.foldl (fun s b => s + b.toNat) r.bytes.length
  { r with sum := UInt8.ofNat (sum + sum >>> 8) }

namespace Client

/-- The first part of a turn: the size is asked for as long as it is not known. -/
def send (c : Client) (seq : UInt16) (txOk : Bool) : Client :=
  let r := if c.filelength = 0 then { c.request with cmd := ccStat } else c.request
  let r := r.prepare c.filepos seq
  if txOk then { c with request := r, sent := c.sent ++ [r] }
  else { c with request := r, status := .returned 0 }

end Client

/-! ## Replies -/

namespace Packet

variable (p : Packet)

/-- The fields of the FSP header. -/
def cmd : UInt8 := p.body 0

def key : UInt16 := UInt16.ofNat (le16 p.body 2)

def seq : UInt16 := UInt16.ofNat (le16 p.body 4)

def len : Nat := be16 p.body 6

def pos : Nat := be32 p.body 8

/-- `reply->udp.len`, from then on without the UDP header. -/
def udpData : Nat := (p.udpLen.toNat + (2 ^ 16 - 8)) % 2 ^ 16

/-- The checksum that is computed over a reply. -/
def checksum : Int :=
  let sum := (p.body.slice 0 p.udpData).foldl (fun s b => s + (b.toNat : Int)) (-((p.body 1).toNat : Int))
  (sum + sum / 2 ^ 8) % 2 ^ 8

/-- The tests that a reply has to pass. -/
def Valid (r : Request) : Prop :=
  p.seq = r.seq ∧ p.len + 12 ≤ p.udpData ∧ p.checksum = (p.body 1).toNat
  deriving Decidable

end Packet

namespace Client

variable (c : Client) (p : Packet)

/-- `await_fsp` on a UDP packet. -/
def awaitFsp : Bool :=
  p.ipDest = c.cfg.clientIp ∧ p.dst = c.cfg.localPort ∧ p.udpLen.toNat ≥ 12 + 8

/-- The size of the file; `0xffffffff` stands for one that is not found. -/
def onStat : Client :=
  { c with
    filelength := if p.body 20 = 0 then 0xffffffff else be32 p.body 16,
    request := { c.request with cmd := ccGetFile, key := p.key } }

/-- Part of the file. A single byte is the last one; of a longer part that reaches the end the last byte
    is left for the next request. -/
def onFile (rc : Int) : Client :=
  if p.pos ≠ c.filepos then c
  else
    let c := { c with request := { c.request with key := p.key } }
    if p.len = 1 then
      { c with request := { c.request with cmd := ccBye, data := c.request.data.set 0 (p.body 12) } }
    else
      let i := if p.len ≥ c.filelength then wsub c.filelength 1 else p.len
      let call : Call := ⟨p.body.slice 12 i, c.block, false⟩
      let c := { c with calls := c.calls ++ [call], block := c.block + 1 }
      if rc = 0 then { c with status := .returned 0 }
      else { c with filepos := (c.filepos + i) % 2 ^ 32, filelength := wsub c.filelength i }

/-- The rest of a turn, with a packet that `await_fsp` has let through. -/
def onReply (rc : Int) : Client :=
  if ¬ p.Valid c.request then c
  else if p.cmd = ccErr then { c with status := .returned 0 }
  else if p.cmd = ccBye ∧ c.filelength = 1 then
    { c with
      calls := c.calls ++ [⟨c.request.data.take 1, c.block, true⟩],
      status := .returned 1 }
  else if p.cmd = ccStat then c.onStat p
  else if p.cmd = ccGetFile then c.onFile p rc
  else c

end Client

/-! ## The loop -/

/-- How the wait for a reply ends, and with what the next turn begins. -/
inductive Event where
  | timeout (seq : UInt16) (txOk : Bool)
  | packet (p : Packet) (rc : Int) (seq : UInt16) (txOk : Bool)

namespace Client

/-- The next turn begins, unless the function has returned. -/
def next (c : Client) (seq : UInt16) (txOk : Bool) : Client :=
  if c.status = .waiting then c.send seq txOk else c

def turn (c : Client) : Event → Client
  | .timeout seq txOk => c.next seq txOk
  | .packet p rc seq txOk => if c.awaitFsp p then (c.onReply p rc).next seq txOk else c

def step (c : Client) (e : Event) : Client := if c.status = .waiting then c.turn e else c

/-- The client up to its first wait. The request is a static variable: command, key and numbers are left
    from the last time. -/
def start (cfg : Config) (old : Request) (name : List UInt8) (seq : UInt16) (txOk : Bool) : Client :=
  let data := name ++ 0 :: be16Bytes maxPayload
  let c : Client :=
    { cfg := cfg, filepos := 0, filelength := 0,
      request := { old with len := name.length + 1, data := data },
      block := 1, status := .waiting, calls := [], sent := [] }
  if name.length > maxFilename then { c with status := .returned 0 } else c.send seq txOk

end Client

end Fsp
