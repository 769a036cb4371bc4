import Etherboot.Lib.Transition
import Etherboot.Pxe.TftpCalls
import Etherboot.Tftp.System

set_option autoImplicit false

/-! # Whole files by TFTP for images (`pxenv_tftp_read_file`, `pxenv_tftp_get_fsize` in `core/pxe_export.c`)

Both calls run `tftp` with the function `pxe_tftp_read_block`, which copies the blocks into the buffer of
the caller, or only counts the bytes if there is no buffer. What `tftp` returns is all that the calls know of
the transfer: they take 0 for a success. That is what `pxe_tftp_read_block` returns for the last block, but
also what `tftp_block` returns when it has got no answer.

`files` is what the server has under each name. The file that a call asks for is recorded beside the state, and
so are the packets whose blocks have been received, and the places to which bytes have been copied. -/

namespace PxeFile

open Memory
open Tftp (Client Packet BlockInfo Request Statics onPacket onTimeout)

/-- `pxe_stack->readfile`. The buffer is a virtual address, 0 being `NULL`. -/
structure ReadFile where
  buffer : Nat
  bufferlen : UInt32
  offset : UInt32

/-- What a call of `pxe_tftp_read_block` does. Not in the source: `written`, the places to which it has copied
    bytes, with their number. -/
structure Delivery where
  rc : Int
  readfile : ReadFile
  mem : Store
  written : List (Nat × Nat)

/-- The end of `pxe_tftp_read_block`. -/
def ReadFile.count (rf : ReadFile) (b : BlockInfo) : ReadFile :=
  { rf with offset := rf.offset + UInt32.ofNat b.len }

def pxeTftpReadBlock (rf : ReadFile) (mem : Store) (b : BlockInfo) : Delivery :=
  let rc := if b.eof then 0 else 1
  if rf.buffer ≠ 0 then
    if rf.offset + UInt32.ofNat b.len ≥ rf.bufferlen then ⟨-1, rf, mem, []⟩
    else
      ⟨rc, rf.count b, mem.splice (rf.buffer + rf.offset.toNat) (b.data.slice 0 b.len),
        [(rf.buffer + rf.offset.toNat, b.len)]⟩
  else ⟨rc, rf.count b, mem, []⟩

inductive Kind where
  | readFile
  | getFsize
  deriving DecidableEq, Repr

inductive Result where
  | notReady
  | failure
  | success
  deriving DecidableEq, Repr

/-- The call that was made last. `client` is its `tftp`, which waits for a packet, has returned, or hangs.
    `fileSize` is the field of the parameters of `PXENV_TFTP_GET_FSIZE`; `result` is set by the step in which
    a call returns. Not in the source: `wanted`, the file on the server, `blocks`, the packets that `tftp_block`
    has taken for its blocks, and `written`. -/
structure Machine where
  client : Client
  kind : Kind
  readfile : ReadFile
  kernelBuf : List UInt8
  mem : Store
  fileSize : UInt32
  result : Option Result
  wanted : List UInt8
  blocks : List Packet
  written : List (Nat × Nat)

/-- The two calls, with what `ENSURE_READY` finds and with what `udp_transmit` returns for the request; and
    what happens to `tftp_block`. -/
inductive Event where
  | readFile (ready : Bool) (fileName : List UInt8) (bufferSize : UInt32) (buffer : Nat) (txOk : Bool)
  | getFsize (ready : Bool) (fileName : List UInt8) (txOk : Bool)
  | timeout (txOk : Bool)
  | packet (p : Packet)

namespace Machine

variable (m : Machine) (files : List UInt8 → List UInt8)

/-- Nothing is reported. -/
def quiet : Machine := { m with result := none }

/-- `tftp` has returned `rc`. -/
def finish (rc : Int) : Machine :=
  { m with
    result := some (if rc = 0 then .success else .failure),
    fileSize := match m.kind with
      | .readFile => m.fileSize
      | .getFsize => if rc = 0 then m.readfile.offset else 0 }

/-- The call goes on, or it returns. -/
def report : Machine :=
  match m.client.status with
  | .returned rc => m.finish rc
  | _ => m.quiet

/-- Whether a call can be made. -/
def Idle : Prop := m.client.status ≠ .waiting ∧ m.client.status ≠ .hung
  deriving Decidable

/-- The call of `tftp` for the file whose name is in the parameters. -/
def start (fileName : List UInt8) (txOk : Bool) : Machine :=
  let name := fileName.takeWhile (· ≠ 0)
  { m with
    client := Client.start m.client.st name txOk, wanted := files name, blocks := [], written := [] }.report

/-- `ENSURE_READY` has found something wrong, and there is no call of `tftp`. -/
def refuse : Machine :=
  { m with client := { m.client with calls := [] }, result := some .notReady, blocks := [], written := [] }

def pxenvTftpReadFile (ready : Bool) (fileName : List UInt8)
    (bufferSize : UInt32) (buffer : Nat) (txOk : Bool) : Machine :=
  let m := { m with kind := .readFile }
  if ready then
    { m with kernelBuf := fileName, readfile := ⟨buffer, bufferSize, 0⟩ }.start files fileName txOk
  else m.refuse

def pxenvTftpGetFsize (ready : Bool) (fileName : List UInt8)
    (txOk : Bool) : Machine :=
  let m := { m with kind := .getFsize }
  if ready then { m with readfile := ⟨0, 0, 0⟩ }.start files fileName txOk else m.refuse

/-- `await_tftp` takes the packet. -/
def Takes (p : Packet) : Prop := m.client.status = .waiting ∧ p.dst = m.client.st.lport
  deriving Decidable

/-- `tftp_block` returns with a block, which is passed on. -/
def deliver (p : Packet) (b : BlockInfo) : Machine :=
  let d := pxeTftpReadBlock m.readfile m.mem b
  { m with
    client := m.client.step (.packet p d.rc), readfile := d.readfile, mem := d.mem,
    blocks := m.blocks ++ [p], written := m.written ++ d.written }.report

def receive (p : Packet) : Machine :=
  match (onPacket m.client.st m.client.request p).out with
  | .block b => m.deliver p b
  | _ => { m with client := m.client.step (.packet p 0) }.report

def step (m : Machine) : Event → Machine
  | .readFile ready fileName bufferSize buffer txOk =>
    if m.Idle then m.pxenvTftpReadFile files ready fileName bufferSize buffer txOk else m.quiet
  | .getFsize ready fileName txOk =>
    if m.Idle then m.pxenvTftpGetFsize files ready fileName txOk else m.quiet
  | .timeout txOk =>
    if m.client.status = .waiting then { m with client := m.client.step (.timeout txOk) }.report
    else m.quiet
  | .packet p => if m.Takes p then m.receive p else m.quiet

/-- Before the first call, with anything in the static variables of `tftp_block` and in memory. -/
def init (st : Statics) (kernelBuf : List UInt8) (mem : Store) : Machine where
  client := ⟨st, none, .returned 0, [], []⟩
  kind := .readFile
  readfile := ⟨0, 0, 0⟩
  kernelBuf := kernelBuf
  mem := mem
  fileSize := 0
  result := none
  wanted := []
  blocks := []
  written := []

/-! ## What is to be reported -/

end Machine

/-- The data in a packet: what follows the opcode and the number of the block. -/
def data (p : Packet) : List UInt8 := p.body.slice 4 (p.udpLen.toNat - 12)

namespace Machine

variable (m : Machine)

/-- What has been received of the file. -/
def file : List UInt8 := m.blocks.flatMap data

/-- The last block has come, the one that is shorter than the others. -/
def Complete : Prop := ∃ b, m.client.calls.getLast? = some b ∧ b.eof = true

/-- A report on the call is right: a file that is read is complete, fits, and is in the buffer; a size is
    that of the file, which is complete. -/
def Right (r : Result) : Prop :=
  match m.kind with
  | .readFile =>
    (r = .success ↔ m.Complete ∧ m.wanted.length ≤ m.readfile.bufferlen.toNat) ∧
      (r = .success → m.mem.Has m.readfile.buffer m.wanted)
  | .getFsize => r = .success → m.Complete ∧ m.fileSize.toNat = m.wanted.length

/-- Bytes have been copied into the buffer only. -/
def Confined : Prop :=
  ∀ w ∈ m.written, w.2 = 0 ∨
    m.readfile.buffer ≤ w.1 ∧ w.1 + w.2 ≤ m.readfile.buffer + m.readfile.bufferlen.toNat

/-- What has been received is the beginning of the file, and all of it if the last block has come. What has
    been taken for a block is long enough for a number. -/
structure Sound : Prop where
  begins : m.file <+: m.wanted
  whole : m.Complete → m.file = m.wanted
  long : ∀ p ∈ m.blocks, 12 ≤ p.udpLen.toNat

structure Good (files : List UInt8 → List UInt8) (m : Machine) (e : Event) : Prop where
  reports : ∀ r, (m.step files e).result = some r → (m.step files e).Right r
  confined : (m.step files e).Confined
  sound : (m.step files e).Sound

/-- The packet acknowledges options, with a block size that has not been offered. -/
def Refuses (p : Packet) : Prop :=
  p.opcode = Tftp.opOack ∧ m.client.st.blockidx = 0 ∧
    ∃ rq, m.client.request = some rq ∧
      ∃ b, ((Tftp.oackBlksize true p.recvlen m.client.st.blksize).run p.body).1 = some b ∧
        (b < Tftp.defaultsizePacket ∨ b > rq.blksize.toNat)

/-- The block in the packet can be added to the file: the sizes do not exceed 32 bits, the file does not just
    fill the buffer, and the buffer is not at the address that stands for none. -/
def Fits (p : Packet) : Prop :=
  let last := ((data p).length : Int) < m.client.st.blksize
  let size := m.file.length + (data p).length
  match m.kind with
  | .readFile =>
    if m.readfile.buffer ≠ 0 then size < 2 ^ 32 ∧ (last → size ≠ m.readfile.bufferlen.toNat)
    else last → size ≤ m.readfile.bufferlen.toNat ∧ m.mem.Has 0 (m.file ++ data p)
  | .getFsize => last → size < 2 ^ 32

/-- The packet has the next block of the file. -/
def IsNext (p : Packet) : Prop :=
  12 ≤ p.udpLen.toNat ∧ data p = Tftp.chunk m.wanted m.client.st.blksize.toNat (m.blocks.length + 1)

/-- The server can be reached and answers in time. It reports no error with the code 0, and no block size
    that has not been offered; what is taken for the next block of the file is that block, and can be added to
    the others. -/
def Condition : Event → Prop
  | .readFile ready _ _ _ txOk => m.Idle → ready = true → txOk = true
  | .getFsize ready _ txOk => m.Idle → ready = true → txOk = true
  | .timeout txOk =>
    m.client.status = .waiting → m.client.st.retry.toNat ≤ Tftp.maxTftpRetries ∧ txOk = true
  | .packet p =>
    m.Takes p → (p.opcode = Tftp.opError → be16 p.body 2 ≠ 0) ∧ ¬ m.Refuses p ∧
      (PxeTftp.Next m.client.st p → m.IsNext p ∧ m.Fits p)

end Machine

end PxeFile
