import Etherboot.Lib.Transition
import Etherboot.Tftp.Client

set_option autoImplicit false

/-! # Files by TFTP for images (`pxenv_tftp_open` and `pxenv_tftp_read` in `core/pxe_export.c`)

An image opens a file and then reads it block by block. Both calls are made of calls of `tftp_block`, which
returns 1 with a block, 0, or the code of an error packet of the server, negated. The calls take everything
but 0 for a success. `pxenv_tftp_open` gets the first block and keeps it in the PXE stack for the first
`pxenv_tftp_read`, marked by a cookie, in memory that other calls use too.

The blocks that have been received but not read yet are recorded beside the state, so that it can be said
which block is the next one. -/

namespace PxeTftp

open Memory Tftp
open Tftp (Statics Request Packet BlockInfo Turn newRequest onPacket onTimeout)

/-- `PXE_TFTP_MAGIC_COOKIE` -/
def magicCookie : UInt32 := 0x50785466

/-- `pxe_stack->tftpdata` -/
structure TftpData where
  cookie : UInt32
  len : Nat
  eof : Bool
  data : Store

/-- The parameters of `PXENV_TFTP_OPEN`; the port in the byte order of the machine. -/
structure OpenParams where
  serverIPAddress : UInt32
  fileName : List UInt8
  tftpPort : UInt16
  packetSize : UInt16

inductive Failure where
  | undiInvalidState
  | tftpFileNotFound
  deriving DecidableEq, Repr

/-- What a call reports. A block that is read has its number, the size that is reported, and as many bytes of
    `data` as `len` says have been copied. -/
inductive Result where
  | failure (status : Failure)
  | opened (packetSize : UInt16)
  | read (packetNumber bufferSize len : Nat) (data : Store)

/-- The call that is in `tftp_block`. `block` is what is in the variable of that name, before `tftp_block`
    has filled it in; its `data` is what is found at address zero. -/
inductive Call where
  | idle
  | opening (request : Request) (block : BlockInfo)
  | reading (block : BlockInfo)
  | hung

/-- `server` and `known` are the entry of the server in the ARP table: its address, and whether its hardware
    address is known. `result` is set by the step in which a call returns. Not in the source: `fresh`, the
    packets with the blocks of the present transfer that have not been read yet, and `count`, the number of
    those that have been read. -/
structure Api where
  st : Statics
  server : UInt32
  known : Bool
  tftpdata : TftpData
  call : Call
  result : Option Result
  fresh : List Packet
  count : Nat

namespace Api

/-! ## The calls -/

def fail (a : Api) (status : Failure) : Api := { a with call := .idle, result := some (.failure status) }

/-- The end of `pxenv_tftp_open`. -/
def opened (a : Api) (packetSize : UInt16) (b : BlockInfo) : Api :=
  { a with
    tftpdata := ⟨magicCookie, b.len, b.eof, b.data⟩, call := .idle, result := some (.opened packetSize) }

/-- The end of `pxenv_tftp_read`. -/
def readBlock (a : Api) (b : BlockInfo) : Api :=
  { a with
    call := .idle, result := some (.read (b.block % 65536) (b.len % 65536) b.len b.data),
    fresh := a.fresh.tail, count := a.count + 1 }

/-- `request->blksize` after a block has come: what has been negotiated, unless the transfer is over. -/
def packetSize (rq : Request) (st : Statics) : UInt16 :=
  if st.blksize = 0 then rq.blksize else UInt16.ofNat (st.blksize % 65536).toNat

/-- A turn of the loop of `tftp_block`, and what the call does when `tftp_block` returns. -/
def turn (a : Api) (call : Call) (t : Turn) : Api :=
  let a := { a with st := t.st }
  match t.out, call with
  | .wait, _ => { a with call := call, result := none }
  | .hung, _ => { a with call := .hung, result := none }
  | .ret rc, .opening rq b => if rc = 0 then a.fail .tftpFileNotFound else a.opened rq.blksize b
  | .ret rc, .reading b => if rc = 0 then a.fail .tftpFileNotFound else a.readBlock b
  | .block b, .opening rq _ => a.opened (packetSize rq t.st) b
  | .block b, .reading _ => a.readBlock b
  | _, _ => a

/-- `if ( !request.blksize ) request.blksize = TFTP_DEFAULTSIZE_PACKET` -/
def request (params : OpenParams) : Request :=
  ⟨params.fileName, params.tftpPort,
    if params.packetSize = 0 then UInt16.ofNat Tftp.defaultsizePacket else params.packetSize⟩

/-- The beginning of `pxenv_tftp_open`: the address of the server changes, and a transfer begins. -/
def tftpOpen (a : Api) (params : OpenParams) (txOk : Bool) (block : BlockInfo) : Api :=
  let other := params.serverIPAddress ≠ 0 ∧ params.serverIPAddress ≠ a.server
  let a := { a with
    server := if other then params.serverIPAddress else a.server,
    known := if other then false else a.known, fresh := [], count := 0 }
  a.turn (.opening (request params) block) (newRequest a.st (request params) txOk)

/-- The beginning of `pxenv_tftp_read`: there is a block already, or `tftp_block` is called, which returns at
    once if there is no transfer. -/
def tftpRead (a : Api) (block : BlockInfo) : Api :=
  if a.tftpdata.cookie = magicCookie then
    { a with tftpdata := { a.tftpdata with cookie := 0 } }.readBlock
      ⟨a.tftpdata.data, 1, a.tftpdata.len, a.tftpdata.eof⟩
  else if a.st.blksize = 0 then a.fail .tftpFileNotFound
  else { a with call := .reading block, result := none }

end Api

namespace Call

/-- The request that `tftp_block` has been called with. -/
def request : Call → Option Request
  | opening rq _ => some rq
  | _ => none

/-- `tftp_block` is waiting. -/
def Waits : Call → Prop
  | opening .. => True
  | reading _ => True
  | _ => False

instance : (c : Call) → Decidable c.Waits
  | opening .. => isTrue trivial
  | reading _ => isTrue trivial
  | idle => isFalse id
  | hung => isFalse id

def Idle : Call → Prop
  | idle => True
  | _ => False

instance : (c : Call) → Decidable c.Idle
  | idle => isTrue trivial
  | opening .. => isFalse id
  | reading _ => isFalse id
  | hung => isFalse id

end Call

/-- The two calls, with what `ENSURE_READY` finds; what happens to `tftp_block`; and the other calls that use
    the memory of `tftpdata` for something else and leave `data` there. -/
inductive Event where
  | tftpOpen (ready : Bool) (params : OpenParams) (txOk : Bool) (block : BlockInfo)
  | tftpRead (ready : Bool) (block : BlockInfo)
  | timeout (txOk : Bool)
  | packet (p : Packet)
  | other (data : TftpData)

namespace Api

/-- Nothing is reported. -/
def quiet (a : Api) : Api := { a with result := none }

/-- `tftp_block` waits and `await_tftp` takes the packet, which is for the current port. -/
def Takes (a : Api) (p : Packet) : Prop := a.call.Waits ∧ p.dst = a.st.lport
  deriving Decidable

/-- The packets with blocks that have not been read, a packet having been taken. -/
def received (a : Api) (p : Packet) : List Packet :=
  a.fresh ++ (onPacket a.st a.call.request p).out.delivered.map (fun _ => p)

def step (a : Api) : Event → Api
  | .tftpOpen ready params txOk block =>
    if ¬ a.call.Idle then a.quiet
    else if ready = false then a.fail .undiInvalidState
    else a.tftpOpen params txOk block
  | .tftpRead ready block =>
    if ¬ a.call.Idle then a.quiet
    else if ready = false then a.fail .undiInvalidState
    else a.tftpRead block
  | .timeout txOk => if a.call.Waits then a.turn a.call (onTimeout a.st txOk) else a.quiet
  | .packet p =>
    if a.Takes p then
      { a with fresh := a.received p }.turn a.call (onPacket a.st a.call.request p)
    else a.quiet
  | .other data => if a.call.Idle then { a.quiet with tftpdata := data } else a.quiet

/-- Before the first call, with anything in the static variables of `tftp_block` and in the stack. -/
def start (st : Statics) (server : UInt32) (known : Bool) (data : TftpData) : Api where
  st := st
  server := server
  known := known
  tftpdata := { data with cookie := 0 }
  call := .idle
  result := none
  fresh := []
  count := st.blockidx.toNat

end Api

/-! ## What is to be reported -/

/-- A data packet with the block `n`. -/
structure IsBlock (p : Packet) (n : Nat) : Prop where
  opcode : p.opcode = Tftp.opData
  len : 12 ≤ p.udpLen.toNat
  block : be16 p.body 2 = n % 65536

/-- Success is reported for a block: on opening for the first one, and on reading for the next one of those
    that have not been read, whose bytes have been copied, all and no more. -/
def Result.Right (queue : List Packet) (count : Nat) : Result → Prop
  | .failure _ => True
  | .opened _ => ∃ p, queue = [p] ∧ IsBlock p 1
  | .read packetNumber bufferSize len data =>
    ∃ p rest, queue = p :: rest ∧ IsBlock p (count + 1) ∧ packetNumber = (count + 1) % 65536 ∧
      bufferSize = len ∧ len + 12 = p.udpLen.toNat ∧ ∀ i < len, data i = p.body (4 + i)

/-- The packet is taken for the next block. -/
def Next (st : Statics) (p : Packet) : Prop :=
  p.opcode = Tftp.opData ∧ be16 p.body 2 = (st.blockidx + 1).toNat ∧
    p.recvlen ≤ ((st.blksize + 2) % 2 ^ 32).toNat

namespace Api

/-- The blocks that have not been read when the call returns. -/
def queue (a : Api) : Event → List Packet
  | .packet p => if a.Takes p then a.received p else a.fresh
  | _ => a.fresh

/-- The server reports an error, or there is no answer: the last attempt has failed, or the server does not
    even answer the question for its hardware address. -/
def Fails (a : Api) : Event → Prop
  | .packet p => a.Takes p ∧ p.opcode = Tftp.opError
  | .timeout txOk => a.call.Waits ∧ (Tftp.maxTftpRetries < a.st.retry.toNat ∨ txOk = false)
  | .tftpOpen ready _ txOk _ => a.call.Idle ∧ ready = true ∧ txOk = false
  | _ => False

def Good (a : Api) (e : Event) : Prop :=
  (∀ r, (a.step e).result = some r → r.Right (a.queue e) a.count) ∧
    (a.Fails e → ∃ status, (a.step e).result = some (.failure status))

/-- The memory of the stack holds the one block that has not been read. -/
def Holds (a : Api) : Prop :=
  ∃ p, a.fresh = [p] ∧ a.tftpdata.len + 12 = p.udpLen.toNat ∧
    ∀ i < a.tftpdata.len, a.tftpdata.data i = p.body (4 + i)

/-- Errors of the server have the code 0, data packets are long enough for the number of the block, and the
    memory of the stack is as `pxenv_tftp_open` has left it when it is read, and is read first. -/
def Condition (a : Api) : Event → Prop
  | .packet p =>
    a.Takes p → (p.opcode = Tftp.opError → be16 p.body 2 = 0) ∧
      (Next a.st p → 12 ≤ p.udpLen.toNat ∧ (a.call.request = none → a.fresh = []))
  | .tftpRead ready _ => a.call.Idle → ready = true → a.tftpdata.cookie = magicCookie → a.Holds
  | _ => True

end Api

/-! ## What a turn of `tftp_block` can do -/

/-- The block of a data packet. -/
def blockOf (st : Statics) (p : Packet) : BlockInfo :=
  let len := (p.recvlen + (2 ^ 32 - 2)) % 2 ^ 32
  ⟨fun i => p.body (4 + i), (st.blockidx + 1).toNat, len,
    decide (((len % 65536 : Nat) : Int) < st.blksize)⟩

/-- A turn that ends without a block and without a code. -/
structure Plain (st : Statics) (t : Turn) : Prop where
  blockidx : t.st.blockidx = st.blockidx
  out : t.out = .wait ∨ t.out = .hung ∨ t.out = .ret 0

theorem plain_onOack (st : Statics) (rq : Option Request) (p : Packet) :
    Plain st (onOack st rq p) := by
  unfold onOack
  split
  · exact ⟨rfl, .inl rfl⟩
  · split
    · exact ⟨rfl, .inl rfl⟩
    · split
      · exact ⟨rfl, .inr (.inl rfl)⟩
      · split
        · exact ⟨rfl, .inr (.inr rfl)⟩
        · exact ⟨rfl, .inl rfl⟩

theorem plain_onTimeout (st : Statics) (txOk : Bool) : Plain st (onTimeout st txOk) := by
  unfold onTimeout
  dsimp only
  split
  · exact ⟨rfl, .inr (.inr rfl)⟩
  · split
    · exact ⟨rfl, .inl rfl⟩
    · exact ⟨rfl, .inr (.inr rfl)⟩

variable {st : Statics} {p : Packet}

theorem Next.not_error (h : Next st p) : p.opcode ≠ opError := by
  rw [h.1]
  decide

theorem onPacket_next (h : Next st p) (rq : Option Request) :
    (onPacket st rq p).out = .block (blockOf st p) ∧
      (onPacket st rq p).st.blockidx = st.blockidx + 1 ∧
      (onPacket st rq p).st.blksize = if (blockOf st p).eof then 0 else st.blksize := by
  rw [onPacket_opData h.1, onData, Statics.noted_blockidx, Statics.noted_blksize,
    if_neg (not_not.mpr h.2.1), if_neg (Nat.not_lt.mpr h.2.2)]
  exact ⟨rfl, rfl, rfl⟩

/-- A packet that is no error, no block and no acknowledgement of options is answered. -/
theorem onPacket_other (herror : p.opcode ≠ opError)
    (hoack : p.opcode ≠ opOack) (hnext : ¬ Next st p) (rq : Option Request) :
    onPacket st rq p = sendAck (st.noted p) .wait := by
  by_cases hdata : p.opcode = opData
  · rw [onPacket_opData hdata, onData]
    split
    · rfl
    · next hblock =>
      split
      · rfl
      · next hlen => exact absurd ⟨hdata, not_not.mp hblock, Nat.not_lt.mp hlen⟩ hnext
  · unfold onPacket
    rw [if_neg herror, if_neg hoack, if_neg hdata]

/-- A packet that is no error and not the next block brings nothing of interest. -/
theorem plain_onPacket (herror : p.opcode ≠ opError) (hnext : ¬ Next st p) (rq : Option Request) :
    Plain st (onPacket st rq p) := by
  by_cases hoack : p.opcode = opOack
  · rw [onPacket_opOack hoack]
    obtain ⟨hidx, hout⟩ := plain_onOack (st.noted p) rq p
    exact ⟨hidx, hout⟩
  · rw [onPacket_other herror hoack hnext]
    exact ⟨rfl, .inl rfl⟩

end PxeTftp
