import Etherboot.Net.Address
import Etherboot.Slam.Nack
import Etherboot.Tftm.Options

set_option autoImplicit false

/-! # The multicast TFTP client (`core/proto_tftm.c`)

`proto_tftm` asks for a file and collects its blocks in any order, from packets sent to the client and
from packets sent to a multicast group. The option acknowledgement tells it the file's size; the image
and a bitmap of the blocks are then allotted on the heap. Blocks are numbered from 1. After every
packet it looks for the first block missing, which the master client acknowledges. The loop ends with
the last block, and also with a timeout, an error packet or a packet of another kind; in all these
cases the image is passed to `info->fnc`.

The client is a machine on events, one for each turn of the loop. The heap and everything on it is in
one memory. Pointers are physical addresses, 0 is the null pointer. The state also keeps a log of the
accesses to bitmap and image and of the packets sent, for the specifications. -/

namespace Tftm

open Memory
open Tftp (opData opError opOack maxTftpRetries)

def tftmPort : UInt16 := 1758

/-- `TFTP_REXMT` and `TFTP_TIMEOUT`, with 18 ticks to a second. -/
def tftpRexmt : Int := 3 * 18

def tftpTimeout : Int := 30 * 18

def opRrq : Nat := 1
def opAck : Nat := 4

/-- What a run depends on: whether the code is compiled with `CONGESTED`, the client's own address, and
    the name of the file. -/
structure Config where
  congested : Bool
  clientIp : Nat
  name : List UInt8

/-- A UDP packet in `nic.packet`: the header fields that are read, `nic.packetlen`, and the bytes from
    the UDP payload on, those behind its end included. -/
structure Packet where
  ipDest : Nat
  src : UInt16
  dst : UInt16
  udpLen : UInt16
  packetlen : Nat
  body : Store

namespace Packet

def opcode (p : Packet) : Nat := be16 p.body 0

def block (p : Packet) : Nat := be16 p.body 2

/-- `len` for data: `ntohs(udp.len) - sizeof(struct udphdr) - 4` in 16 bits. -/
def dataLen (p : Packet) : Nat := (p.udpLen.toNat + (2 ^ 16 - 12)) % 2 ^ 16

/-- `len` for options. -/
def optionLen (p : Packet) : Nat := (p.udpLen.toNat + (2 ^ 16 - 10)) % 2 ^ 16

end Packet

/-- `struct tftpreq_t`, from the opcode on. -/
structure Tp where
  opcode : Nat
  u : Store

def Tp.ackBlock (tp : Tp) (block : Nat) : Tp := { tp with u := tp.u.splice 0 (be16Bytes block) }

/-- A datagram sent: its ports and what is in it from the opcode on. -/
structure Sent where
  src : UInt16
  dst : UInt16
  opcode : Nat
  u : List UInt8
  deriving DecidableEq, Repr

/-- An access to the bitmap or the image, with the bytes that are allotted for it: a bit, the first `n`
    bytes, and a copy of `n` bytes to an offset of the image. For a copy there is also `filesize` as
    it is then. -/
inductive Access where
  | bit (i allotted : Nat)
  | clear (n allotted : Nat)
  | copy (offset n filesize allotted : Nat)
  deriving DecidableEq, Repr

/-- The loop goes on, the function has returned 0, divided by zero, looks at an option for ever, or
    has passed an image on. -/
inductive Status where
  | waiting
  | returned
  | fault
  | hung
  | passed (image filesize : Nat)
  deriving DecidableEq, Repr

/-- The variables of `proto_tftm` with `state` and `info`. The last fields are not in the source: what
    is allotted for bitmap and image, and the logs. -/
structure Client where
  cfg : Config
  opts : Options
  totalPackets : Nat
  receivedPackets : Nat
  image : Nat
  bitmap : Nat
  recvdOack : Bool
  heap : Alloc.Heap
  retry : Int
  iport : UInt16
  len : Nat
  block : Nat
  prevblock : Nat
  tp : Tp
  status : Status
  bitmapLen : Nat
  imageLen : Nat
  log : List Access
  sent : List Sent

/-- The request: the file's name, the mode, and the options the client wants. -/
def rrqText (name : List UInt8) : List UInt8 :=
  name ++ 0 :: Text.bytes "octet" ++ 0 :: Text.bytes "multicast" ++ 0 :: 0 :: Text.bytes "blksize" ++
    0 :: Text.bytes "1024" ++ 0 :: Text.bytes "tsize" ++ [0, 0]

/-- `await_tftm` on a UDP packet. -/
def Client.awaitTftm (c : Client) (p : Packet) : Bool :=
  if p.ipDest = c.cfg.clientIp then p.dst = c.iport
  else p.ipDest = c.opts.multicastIp ∧ p.dst.toNat = c.opts.multicastPort ∧ p.packetlen ≥ 14 + 20 + 8

namespace Client

variable (c : Client) (p : Packet)

/-- `udp_transmit` of `tp`, `len` bytes with the headers. -/
def transmit (dst : UInt16) (len : Nat) : Client :=
  { c with sent := c.sent ++ [⟨c.iport, dst, c.tp.opcode, c.tp.u.slice 0 (len - (20 + 8 + 2))⟩] }

/-- `sprintf` of the request into `tp`; the opcode stays as it is. -/
def putRrq : Client :=
  { c with
    tp := { c.tp with u := c.tp.u.splice 0 (rrqText c.cfg.name) },
    len := 20 + 8 + 2 + (rrqText c.cfg.name).length }

/-- The way out of the loop. -/
def finish : Client := { c with status := .passed c.image c.opts.filesize }

/-! ## Silence -/

/-- The request is sent again, from a new port. -/
def askAgain (sent : Bool) : Client :=
  let c := { c with retry := c.retry + 1, iport := c.iport + 1 }
  if sent then c.transmit tftmPort c.len else { c with status := .returned }

/-- A timeout of `await_reply`; `sent` is whether `udp_transmit` then succeeds. -/
def onTimeout (sent : Bool) : Client :=
  if c.block = 0 then
    if c.retry < maxTftpRetries then c.askAgain sent else { c with retry := c.retry + 1 }.finish
  else if c.cfg.congested then
    let c := { c with retry := c.retry + tftpRexmt }
    if c.retry < tftpTimeout then
      let c := { c with iport := c.iport + 1 }.putRrq
      if sent then c.transmit tftmPort c.len else c
    else c.finish
  else c.finish

/-! ## The end of a turn -/

/-- The blocks looked at for the first one missing, with `n` left from `b` on. -/
def scanned (bit : Nat → Bool) : Nat → Nat → List Nat
  | 0, _ => []
  | n + 1, b => if bit b then b :: scanned bit n (b + 1) else [b]

/-- The first clear bit of `n` bits from `b` on. -/
def firstClear (bit : Nat → Bool) : Nat → Nat → Option Nat
  | 0, _ => none
  | n + 1, b => if bit b then firstClear bit n (b + 1) else some b

/-- The bit behind the last block's is set to its inverse, and the first block missing is looked for. -/
def findMissing : Client :=
  let max := c.totalPackets + 1
  let mem := Slam.invertTrailer c.heap.mem c.bitmap max
  let bit := Bitmap.bit mem c.bitmap
  { c with
    heap := { c.heap with mem := mem },
    tp :=
      match firstClear bit max 1 with
      | some b => c.tp.ackBlock (b - 1)
      | none => c.tp
    log := c.log ++
      ((c.totalPackets :: max :: scanned bit max 1).map (fun i => Access.bit i c.bitmapLen)) }

def sendAck (oport : UInt16) : Client :=
  { c with tp := { c.tp with opcode := opAck } }.transmit oport (20 + 8 + 4)

/-- All blocks are there. -/
def complete (oport : UInt16) : Client :=
  let c := if c.opts.ismaster then c else { c with tp := c.tp.ackBlock c.totalPackets }.sendAck oport
  { c with heap := c.heap.forget (if c.bitmap = 0 then none else some c.bitmap) }.finish

/-- The master acknowledges the blocks before the first one missing. -/
def answer (oport : UInt16) : Client :=
  let c := if c.receivedPackets ≤ c.totalPackets then c.findMissing else c
  if c.opts.ismaster then c.sendAck oport else c

/-- What follows the work on options and data. -/
def acknowledge : Client :=
  let c := c.answer p.src
  if c.receivedPackets = c.totalPackets then c.complete p.src
  else if (c.block + (2 ^ 16 - c.prevblock)) % 2 ^ 16 ≠ 1 then c
  else { c with prevblock := c.block, retry := 0 }

/-! ## Options -/

/-- The server does not do multicast: it is told, and the function returns 0. -/
def refuse : Client :=
  let text : List UInt8 := [8, 0] ++ Text.bytes "RFC2090 error" ++ [0]
  let c :=
    { c with
      tp := ⟨opError, c.tp.u.splice 0 text⟩, len := 20 + 8 + 2 + text.length }
  { c.transmit p.src c.len with status := .returned }

/-- `state.total_packets` for a file, in 32 bits. -/
def packets (filesize blockSize : Nat) : Nat :=
  (1 + (filesize - filesize % blockSize) / blockSize) % 2 ^ 32

/-- `bitmap_len` -/
def bitmapBytes (totalPackets : Nat) : Nat := (totalPackets + 7) % 2 ^ 32 / 8

/-- Places for bitmap and image. -/
def place : Client :=
  let bitmap := c.heap.allot (bitmapBytes c.totalPackets)
  let image := bitmap.2.allot c.opts.filesize
  { c with
    bitmap := bitmap.1.getD 0, image := image.1.getD 0, heap := image.2,
    bitmapLen := if bitmap.1.isSome then bitmapBytes c.totalPackets else 0,
    imageLen := c.opts.filesize }

/-- The bitmap is cleared. -/
def clearBitmap : Client :=
  { c with
    heap := { c.heap with mem := memset c.heap.mem c.bitmap 0 (bitmapBytes c.totalPackets) },
    log := c.log ++ [.clear (bitmapBytes c.totalPackets) c.bitmapLen] }

/-- Room for a file, when the first options have come. -/
def allotFile : Client :=
  if c.place.image < 1024 * 1024 then { c.place with status := .returned } else c.place.clearBitmap

/-- The first options, with `state.total_packets` set: an image that is there already is kept. -/
def openFile : Client :=
  let c := if c.image = 0 then c.allotFile else c
  if c.status = .waiting then { c with recvdOack := true }.acknowledge p else c

/-- The work on options, with what `opt_get_multicast` has returned and set. -/
def onOptions : Option (Int × Options) → Client
  | none => { c with status := .hung }
  | some (i, opts) =>
    let c := { c with opts := opts, len := p.optionLen }
    if i = 0 ∨ (i ≠ 7 ∧ c.recvdOack = false) then c.refuse p
    else if c.recvdOack then c.acknowledge p
    else if opts.blockSize = 0 then { c with status := .fault }
    else { c with totalPackets := packets opts.filesize opts.blockSize }.openFile p

/-- The options of a packet. -/
def options : Option (Int × Options) :=
  readOptions p.optionLen c.opts p.body

def onOack : Client := c.onOptions p (c.options p)

/-! ## Data -/

/-- The length that is expected of a block. -/
def expected (block : Nat) : Nat :=
  if block ≠ c.totalPackets then c.opts.blockSize else c.opts.filesize % c.opts.blockSize

/-- A block that is not there yet. The offset is computed in 32 bits. -/
def store (block : Nat) : Client :=
  let offset := wsub block 1 * c.opts.blockSize % 2 ^ 32
  let n := min (c.expected block) c.opts.blockSize
  { c with
    heap := { c.heap with
      mem := memcpy (Bitmap.setBit c.heap.mem c.bitmap block) ((c.image + offset) % 2 ^ 32)
        (fun k => p.body (4 + k)) n },
    receivedPackets := (c.receivedPackets + 1) % 2 ^ 32,
    log := c.log ++ [.bit block c.bitmapLen, .copy offset n c.opts.filesize c.imageLen] }

/-- A bit of the bitmap is read. -/
def looksAt (i : Nat) : Client := { c with log := c.log ++ [.bit i c.bitmapLen] }

/-- The work on a block, its number being in `block`. -/
def onBlock : Client :=
  if c.block > c.totalPackets then c
  else if c.block = c.totalPackets ∧ c.opts.blockSize = 0 then { c with status := .fault }
  else if p.udpLen.toNat ≠ c.expected c.block + 12 then c
  else if p.packetlen < c.expected c.block + (14 + 20 + 8 + 4) then c
  else if Bitmap.bit c.heap.mem c.bitmap c.block then (c.looksAt c.block).acknowledge p
  else ((c.looksAt c.block).store p c.block).acknowledge p

def onData : Client :=
  if p.dataLen > minPacket then { c with len := p.dataLen }
  else { c with len := p.dataLen, block := p.block, tp := c.tp.ackBlock p.block }.onBlock p

/-! ## The loop -/

def onPacket : Client :=
  if p.opcode = opError then c.finish
  else if p.opcode = opOack then c.onOack p
  else if p.opcode = opData then c.onData p
  else c.finish

end Client

inductive Event where
  | timeout (sent : Bool)
  | packet (p : Packet)

namespace Client

def turn (c : Client) : Event → Client
  | .timeout sent => c.onTimeout sent
  | .packet p => if c.awaitTftm p then c.onPacket p else c

def step (c : Client) (e : Event) : Client := if c.status = .waiting then c.turn e else c

def run (c : Client) (es : List Event) : Client := es.foldl step c

/-- The client when it enters the loop: `url_tftm` has cleared `state`, and the request has been sent
    from the port `iport`. -/
def start (cfg : Config) (heap : Alloc.Heap) (iport : UInt16) (u : Store) : Client :=
  let c : Client :=
    { cfg := cfg,
      opts := ⟨0, 0, cfg.clientIp, tftmPort.toNat, false⟩,
      totalPackets := 0, receivedPackets := 0, image := 0, bitmap := 0, recvdOack := false,
      heap := heap, retry := 0, iport := iport, len := 0, block := 0, prevblock := 0,
      tp := ⟨opRrq, u⟩, status := .waiting, bitmapLen := 0, imageLen := 0, log := [], sent := [] }
  let c := c.putRrq
  c.transmit tftmPort c.len

end Client

end Tftm
