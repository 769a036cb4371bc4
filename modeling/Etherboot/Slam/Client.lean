import Etherboot.Alloc.Heap
import Etherboot.Lib.Bitmap
import Etherboot.Slam.Codec

set_option autoImplicit false

/-! # The SLAM client

`proto_slam` collects the packets of a multicast transfer in any order. The file's image and a bitmap
of the packets received are on the heap. Every packet begins with a header (transaction, file size,
block size); one with another header starts the transfer anew (`reinit_slam_state`). When it hears
nothing, or is asked for it, the client answers with the run lengths of its bitmap
(`slam_send_nack`).

The client is a machine on events, one for each turn of the loop in `proto_slam`. The heap and
everything on it is in one memory. Pointers are physical addresses, 0 is the null pointer. -/

namespace Slam

open Memory

/-- `sizeof(state.hdr)`: three integers of at most seven bytes. -/
def maxHdr : Nat := 7 + 7 + 7

/-- Where the UDP header and what it carries begin in a frame. -/
def udpOffset : Nat := 14 + 20

def headerOffset : Nat := 14 + 20 + 8

/-- A call of `memcpy` in `slam_recv_data`. -/
structure Put where
  packet : Nat
  dst : Nat
  len : Nat
  deriving DecidableEq, Repr

/-- `struct slam_state`. The last field is not in the source: the stores of this transfer. -/
structure SlamState where
  hdr : Store
  hdrLen : Nat
  blockSize : Nat
  totalBytes : Nat
  totalPackets : Nat
  receivedPackets : Nat
  image : Nat
  bitmap : Nat
  puts : List Put

/-- `init_slam_state`, which leaves `total_bytes` as it was. -/
def initSlamState (totalBytes : Nat) : SlamState :=
  { hdr := fun _ => 0, hdrLen := maxHdr, blockSize := 0, totalBytes := totalBytes, totalPackets := 0,
    receivedPackets := 0, image := 0, bitmap := 0, puts := [] }

/-- What is in `nic.packet`, and `nic.packetlen`. -/
structure Packet where
  bytes : Store
  packetlen : Nat

/-! ## A new transfer -/

/-- How a packet is taken: with a division by zero, not at all, or with its data from `data` on. -/
inductive Entry where
  | fault
  | refused (st : SlamState) (heap : Alloc.Heap)
  | entered (st : SlamState) (heap : Alloc.Heap) (data : Nat)

/-- The header of a packet: file size, block size, the position behind and `err`. -/
def Packet.header (p : Packet) : Nat × Nat × Nat × Int :=
  let start : Nat × Int :=
    match slamSkip p.bytes headerOffset p.packetlen with
    | none => (headerOffset, -1)
    | some data => (data, 0)
  let total := slamDecode 4 p.bytes start.1 p.packetlen start.2
  let block := slamDecode 4 p.bytes total.2.1 p.packetlen total.2.2
  (total.1, block.1, block.2.1, block.2.2)

variable (st : SlamState)

/-- The last part of `reinit_slam_state`: room on the heap for bitmap and image. -/
def allotTransfer (heap : Alloc.Heap) : Entry :=
  let heap := if st.bitmap ≠ 0 then heap.forget (some st.bitmap) else heap
  let bitmapLen := (st.totalPackets + 1 + 7) / 8
  let bitmap := heap.allot bitmapLen
  let image := bitmap.2.allot st.totalBytes
  let st := { st with bitmap := bitmap.1.getD 0, image := image.1.getD 0 }
  if st.image < 1024 * 1024 then .refused st image.2
  else
    .entered st { image.2 with mem := memset image.2.mem st.bitmap 0 bitmapLen }
      (headerOffset + st.hdrLen)

def reinitSlamState (heap : Alloc.Heap) (p : Packet) : Entry :=
  let (totalBytes, blockSize, data, err) := p.header
  if err ≠ 0 then .refused { st with hdrLen := 0 } heap
  else if blockSize = 0 then .fault
  else
    let totalPackets := wsub ((totalBytes + blockSize) % 2 ^ 32) 1 / blockSize
    let hdrLen := data - headerOffset
    -- the longest packet number, tried out in the header's buffer
    let number := (slamEncode 4 st.hdr 0 maxHdr totalPackets).getD (0, st.hdr)
    let st :=
      { st with
        blockSize := blockSize, totalBytes := totalBytes, totalPackets := totalPackets,
        hdrLen := hdrLen, receivedPackets := 0, puts := [],
        hdr := number.2.splice 0 (p.bytes.slice headerOffset hdrLen) }
    if blockSize > wsub 1500 (20 + 8 + hdrLen + number.1) then .refused st heap
    else allotTransfer st heap

/-- The packet belongs to the transfer at hand. -/
def SlamState.knows (p : Packet) : Bool :=
  st.hdr.slice 0 st.hdrLen == p.bytes.slice headerOffset st.hdrLen

def enter (heap : Alloc.Heap) (p : Packet) : Entry :=
  if st.knows p then .entered st heap (headerOffset + st.hdrLen) else reinitSlamState st heap p

/-! ## Data -/

/-- What becomes of a data packet: only the first is the return value 0. -/
inductive Received where
  | invalid
  | dropped
  | duplicate
  | stored (put : Put)
  deriving DecidableEq, Repr

/-- The length that the client expects of a packet. -/
def SlamState.dataLen (packet : Nat) : Nat :=
  if packet ≠ wsub st.totalPackets 1 then st.blockSize else st.totalBytes % st.blockSize

def slamRecvData (mem : Store) (p : Packet) (data : Nat) :
    Received × SlamState × Store :=
  let (packet, data, err) := slamDecode 4 p.bytes data p.packetlen 0
  if err ≠ 0 ∨ packet > st.totalPackets then (.invalid, st, mem)
  else if be16 p.bytes (udpOffset + 4) ≠ st.dataLen packet + (data - udpOffset) then
    (.dropped, st, mem)
  else if p.packetlen < st.dataLen packet + data then (.dropped, st, mem)
  else if Bitmap.bit mem st.bitmap packet then (.duplicate, st, mem)
  else
    let put : Put :=
      { packet := packet, dst := (st.image + packet * st.blockSize) % 2 ^ 32,
        len := min (st.dataLen packet) st.blockSize }
    (.stored put,
      { st with receivedPackets := (st.receivedPackets + 1) % 2 ^ 32, puts := put :: st.puts },
      memcpy (Bitmap.setBit mem st.bitmap packet) put.dst (fun k => p.bytes (data + k)) put.len)

/-! ## The answer -/

/-- The end of `nack.data` for the run lengths, with a byte kept for the null at the end. -/
def nackEnd : Nat := 1500 - (20 + 8) - 1

/-- The walk over the bitmap, on the bits `bit`, with `n` of them left from `i` on. -/
def nackLoop (bit : Nat → Bool) : Nat → Nat → Nat → Bool → Nat → Store → Nat × Store
  | 0, _, _, _, ptr, data => (ptr, data)
  | n + 1, i, len, last, ptr, data =>
    if bit i = last then nackLoop bit n (i + 1) (len + 1) last ptr data
    else
      match slamEncode 4 data ptr nackEnd len with
      | none => (ptr, data)
      | some (ptr, data) => nackLoop bit n (i + 1) 1 (bit i) ptr data

/-- The bit behind the last packet's is set to its inverse. -/
def invertTrailer (mem : Store) (bitmap max : Nat) : Store :=
  let value := !Bitmap.bit mem bitmap (wsub max 1)
  let mem := Bitmap.clearBit mem bitmap max
  if value then Bitmap.setBit mem bitmap max else mem

/-- `slam_send_nack`: the memory, and `nack.data` with its end. -/
def slamSendNack (mem data : Store) : Store × Nat × Store :=
  if st.bitmap = 0 then
    let (ptr, data) := (slamEncode 4 data 0 nackEnd 0).getD (0, data)
    let (ptr, data) := (slamEncode 4 data ptr nackEnd 1).getD (ptr, data)
    (mem, ptr, data)
  else
    let mem := invertTrailer mem st.bitmap st.totalPackets
    (mem, nackLoop (Bitmap.bit mem st.bitmap) (st.totalPackets + 1) 0 0 true 0 data)

/-- What `transmit_nack` sends in its datagram. -/
def transmitNack (ptr : Nat) (data : Store) : List UInt8 := (data.set ptr 0).slice 0 (ptr + 1)

/-! ## The loop -/

/-- The client waits, has returned 0, has divided by zero, or has passed an image on. -/
inductive Status where
  | waiting
  | returned
  | fault
  | passed (image totalBytes : Nat)
  deriving DecidableEq, Repr

structure Client where
  st : SlamState
  heap : Alloc.Heap
  nack : Store
  retry : Int
  sentNack : Bool
  status : Status
  sent : List (List UInt8)

/-- A frame for the client that `await_slam` knows by its addresses: a request sent to it, or data
    sent to the multicast group. -/
inductive Event where
  | timeout
  | request (p : Packet)
  | data (p : Packet)

namespace Client

variable (c : Client)

def sendNack : Client :=
  let (mem, ptr, data) := slamSendNack c.st c.heap.mem c.nack
  { c with
    heap := { c.heap with mem := mem }, nack := data.set ptr 0, sentNack := true,
    sent := c.sent ++ [transmitNack ptr data] }

/-- The way out of the loop: `slam_send_disconnect`, and the image is passed to `info->fnc`. -/
def finish : Client :=
  { c with
    status := .passed c.st.image c.st.totalBytes, sentNack := false,
    sent := if c.sentNack then c.sent ++ [[0]] else c.sent }

def onData (p : Packet) (data : Nat) : Client :=
  let (received, st, mem) := slamRecvData c.st c.heap.mem p data
  let c := { c with st := st, heap := { c.heap with mem := mem } }
  if received = .invalid then { c with status := .returned }
  else if c.st.receivedPackets = c.st.totalPackets then c.finish
  else c

/-- A packet that has been entered is handed on to `k`, with the position of its data. -/
def onEntry (p : Packet) (k : Client → Nat → Client) : Client :=
  match enter c.st c.heap p with
  | .fault => { c with status := .fault }
  | .refused st heap => { c with st := st, heap := heap, status := .returned }
  | .entered st heap data => k { c with st := st, heap := heap } data

/-- `SLAM_MAX_RETRIES` -/
def maxRetries : Int := 20

/-- One turn of the loop. A frame that is too short does not end the wait for one. -/
def turn : Event → Client
  | .timeout =>
    if c.retry > maxRetries then { c with retry := c.retry + 1, status := .returned }
    else { c with retry := c.retry + 1 }.sendNack
  | .request p =>
    if p.packetlen < headerOffset + 3 then c
    else { c with retry := 0 }.onEntry p (fun c _ => c.sendNack)
  | .data p =>
    if p.packetlen < headerOffset + 3 + 1 then c
    else { c with retry := 0 }.onEntry p (fun c data => c.onData p data)

def step (e : Event) : Client :=
  if c.status = .waiting then c.turn e else c

/-- The client when it enters the loop. -/
def start (heap : Alloc.Heap) (totalBytes : Nat) (nack : Store) : Client :=
  { st := initSlamState totalBytes, heap := heap, nack := nack, retry := -1, sentNack := false,
    status := .waiting, sent := [] }

end Client

end Slam
