import Etherboot.Lib.Memory
import Etherboot.Lib.Transition

set_option autoImplicit false

/-! # RPC messages of the NFS client (`core/nfs.c`)

The calls that the client makes and the replies it reads. All integers in them are 32-bit words, the
most significant byte first. A call carries AUTH_UNIX credentials with the client's host name, those
to the port mapper carry none. -/

namespace Nfs

open Memory

def sunrpcPort : Nat := 111
def progPortmap : Nat := 100000
def progNfs : Nat := 100003
def progMount : Nat := 100005
def msgCall : Nat := 0
def msgReply : Nat := 1
def portmapGetport : Nat := 3
def mountAddentry : Nat := 1
def mountUmountall : Nat := 4
def nfsLookup : Nat := 4
def nfsReadlink : Nat := 5
def nfsRead : Nat := 6

/-- `NFS_FHSIZE` -/
def fhSize : Nat := 32

/-! ## Calls -/

/-- A call message: `cred` are credentials and verifier, `args` the arguments of the procedure. -/
structure Call where
  id : Nat
  prog : Nat
  vers : Nat
  proc : Nat
  cred : List UInt8
  args : List UInt8
  deriving DecidableEq, Repr

def words (ws : List Nat) : List UInt8 := ws.flatMap be32Bytes

/-- The message as it is sent. -/
def Call.bytes (m : Call) : List UInt8 :=
  words [m.id, msgCall, 2, m.prog, m.vers, m.proc] ++ m.cred ++ m.args

/-- A text padded with zeros to a whole number of words. -/
def padded (text : List UInt8) : List UInt8 :=
  text ++ List.replicate ((text.length + 3) / 4 * 4 - text.length) 0

/-- A text with its length in front. -/
def xdrString (text : List UInt8) : List UInt8 := be32Bytes text.length ++ padded text

/-- `rpc_add_credentials` -/
def rpcAddCredentials (hostname : List UInt8) : List UInt8 :=
  words [1, (hostname.length + 3) / 4 * 4 + 20, 0] ++ xdrString hostname ++ words [0, 0, 0] ++ words [0, 0]

/-- The call that asks the port mapper for the UDP port of a program. -/
def getportCall (id prog vers : Nat) : Call :=
  ⟨id, progPortmap, 2, portmapGetport, words [0, 0, 0, 0], words [prog, vers, 17, 0]⟩

def mountCall (id : Nat) (hostname path : List UInt8) : Call :=
  ⟨id, progMount, 1, mountAddentry, rpcAddCredentials hostname, xdrString path⟩

def umountallCall (id : Nat) (hostname : List UInt8) : Call :=
  ⟨id, progMount, 1, mountUmountall, rpcAddCredentials hostname, []⟩

def lookupCall (id : Nat) (hostname fh path : List UInt8) : Call :=
  ⟨id, progNfs, 2, nfsLookup, rpcAddCredentials hostname, fh ++ xdrString path⟩

def readlinkCall (id : Nat) (hostname fh : List UInt8) : Call :=
  ⟨id, progNfs, 2, nfsReadlink, rpcAddCredentials hostname, fh⟩

def readCall (id : Nat) (hostname fh : List UInt8) (offset len : Int) : Call :=
  ⟨id, progNfs, 2, nfsRead, rpcAddCredentials hostname,
    fh ++ words [(offset % 2 ^ 32).toNat, (len % 2 ^ 32).toNat, 0]⟩

theorem read_args_inj {fh fh' : List UInt8} {offset offset' count count' : Nat} (ho : offset < 2 ^ 32)
    (ho' : offset' < 2 ^ 32) (hc : count < 2 ^ 32) (hc' : count' < 2 ^ 32)
    (h : fh ++ words [offset, count, 0] = fh' ++ words [offset', count', 0]) :
    fh = fh' ∧ offset = offset' ∧ count = count' := by
  obtain ⟨hfh, hwords⟩ := List.append_inj' h rfl
  obtain ⟨hoffset, hrest⟩ := List.append_inj hwords rfl
  obtain ⟨hcount, -⟩ := List.append_inj hrest rfl
  exact ⟨hfh, be32Bytes_inj ho ho' hoffset, be32Bytes_inj hc hc' hcount⟩

/-! ## Replies -/

/-- A UDP packet in `nic.packet`: the header fields that are read, `nic.packetlen`, and the bytes from
    the UDP payload on, those behind its end included. -/
structure Packet where
  ipDest : Nat
  dst : Nat
  packetlen : Nat
  body : Store

namespace Packet

variable (p : Packet)

def word (k : Nat) : Nat := be32 p.body (4 * k)

def id : Nat := p.word 0
def type : Nat := p.word 1
def rstatus : Nat := p.word 2
def verifier : Nat := p.word 3
def astatus : Nat := p.word 5

/-- `rpc->u.reply.data[k]` -/
def data (k : Nat) : Nat := p.word (6 + k)

/-- Where `rpc->u.reply.data[k]` is. -/
def dataOffset (k : Nat) : Nat := 4 * (6 + k)

/-- `await_rpc` on a UDP packet, for the call `id` from port `ival`. -/
def awaitRpc (clientIp ival id : Nat) : Bool :=
  p.ipDest = clientIp ∧ p.dst = ival ∧ p.packetlen ≥ 14 + 20 + 8 + 8 ∧ p.id = id ∧ p.type = msgReply

/-- The RPC itself has succeeded. -/
def Accepted : Prop := p.rstatus = 0 ∧ p.verifier = 0 ∧ p.astatus = 0
  deriving Decidable

/-- The procedure has succeeded as well. -/
def Succeeded : Prop := p.Accepted ∧ p.data 0 = 0
  deriving Decidable

/-- What the functions for mount and NFS procedures return. A verifier of another kind alone is reported,
    but gives 0. -/
def result : Int :=
  if p.Succeeded then 0
  else if p.rstatus ≠ 0 then -9999
  else if p.astatus ≠ 0 then -9998
  else int32 (-(p.data 0 : Int))

/-- What `rpc_lookup` returns. -/
def port : Int := if p.Accepted then int32 (p.data 0) else -1

end Packet

end Nfs
