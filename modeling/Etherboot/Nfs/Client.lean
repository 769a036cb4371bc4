import Etherboot.Nfs.Rpc

set_option autoImplicit false

/-! # The NFS client (`nfs` in `core/nfs.c`)

`nfs` looks up the ports of mount and NFS server, mounts the directory of the file, looks the file up
and reads it in blocks of 1024 bytes, which it passes on to `fnc`. A read that fails with one of two
errors is taken for a symbolic link: its text is read, and all begins anew with the new path.

Each of these is a remote procedure call: a message with a new id, sent up to 20 times until a reply
with that id comes. The client is a machine on events, a reply or a timeout, that is always waiting for
one call. What `fnc` returns comes from outside, as part of the event. The state also keeps a log of the
calls sent and of the blocks passed on. -/

namespace Nfs

open Memory

def startOport : Nat := 700
def oportSweep : Nat := 200
def maxRpcRetries : Nat := 20
def readSize : Int := 1024
def maxLinkDepth : Nat := 16
def errIsdir : Int := 21
def errInval : Int := 22

/-- The calls. After the last one `nfs` returns `rc`. -/
inductive Rpc where
  | mountPort
  | nfsPort
  | mount
  | lookup
  | read
  | readlink
  | umountall (rc : Int)
  deriving DecidableEq, Repr

/-- A call of `fnc`, with what it returns. `len` is the value before it becomes unsigned. -/
structure Block where
  data : List UInt8
  block : Nat
  len : Int
  eof : Bool
  rc : Int
  deriving DecidableEq, Repr

inductive Status where
  | waiting
  | returned (rc : Int)
  deriving DecidableEq, Repr

/-- A call that was sent, with its ports. -/
structure Sent where
  src : Nat
  dst : Nat
  call : Call
  deriving DecidableEq, Repr

structure Config where
  clientIp : Nat
  serverIp : Nat
  hostname : List UInt8

/-- The static variables of the file. -/
structure Statics where
  oport : Nat
  mountPort : Int
  nfsPort : Int
  fsMounted : Bool
  rpcId : Nat

/-- The variables of `nfs`, the call it waits for, and the logs. `exhausted` is not in the source: some
    call has run out of retries. -/
structure Client where
  cfg : Config
  statics : Statics
  sport : Nat
  namelen : Nat
  dirname : Store
  fname : Nat
  dirfh : List UInt8
  filefh : List UInt8
  recursion : Nat
  block : Nat
  size : Int
  offs : Int
  len : Int
  rpc : Rpc
  call : Call
  retries : Nat
  status : Status
  exhausted : Bool
  blocks : List Block
  sent : List Sent

/-! ## Texts -/

/-- The text at `p`, without its null, at most `n` bytes. -/
def cstring (s : Store) : Nat → Nat → List UInt8
  | 0, _ => []
  | n + 1, p => if s p = 0 then [] else s p :: cstring s n (p + 1)

/-- The text at `p`; no text is longer than the memory. -/
def text (s : Store) (p : Nat) : List UInt8 := cstring s (2 ^ 32) p

/-- The last slash of the first `n` bytes. -/
def lastSlash (s : Store) : Nat → Option Nat
  | 0 => none
  | n + 1 => if s n = 47 then some n else lastSlash s n

/-- What `nfs_readlink` makes of the path and the text of a link: the text replaces the path if it is
    absolute, and is appended to it otherwise, cut to fit. -/
def followLink (path : Store) (link : List UInt8) : Store :=
  let pathlen := (text path 0).length
  if link.head? ≠ some 47 then
    let path := path.set pathlen 47
    let n := (min (link.length : Int) (298 - (pathlen + 1 : Nat))).toNat
    (path.splice (pathlen + 1) (if n > 0 then (link ++ [0]).take (n + 1) else [])).set (pathlen + 1 + n) 0
  else
    let n := min link.length 298
    (path.splice 0 ((link ++ [0]).take (n + 1))).set n 0

/-! ## Calls -/

namespace Client

variable (c : Client) (p : Packet) (rc : Int)

/-- The message for a call, with the id `rpc_id`. -/
def message : Rpc → Call
  | .mountPort => getportCall c.statics.rpcId progMount 1
  | .nfsPort => getportCall c.statics.rpcId progNfs 2
  | .mount => mountCall c.statics.rpcId c.cfg.hostname (text c.dirname 0)
  | .lookup => lookupCall c.statics.rpcId c.cfg.hostname c.dirfh (text c.dirname c.fname)
  | .read => readCall c.statics.rpcId c.cfg.hostname c.filefh c.offs c.len
  | .readlink => readlinkCall c.statics.rpcId c.cfg.hostname c.filefh
  | .umountall _ => umountallCall c.statics.rpcId c.cfg.hostname

/-- The port a call is sent from; unmounting does not use the one of this download. -/
def source : Rpc → Nat
  | .umountall _ => c.statics.oport
  | _ => c.sport

def dest : Rpc → Nat
  | .mountPort | .nfsPort => sunrpcPort
  | .mount | .umountall _ => (c.statics.mountPort % 2 ^ 16).toNat
  | _ => (c.statics.nfsPort % 2 ^ 16).toNat

def transmit : Client :=
  { c with sent := c.sent ++ [⟨c.source c.rpc, c.dest c.rpc, c.call⟩] }

/-- A call begins. -/
def begin (rpc : Rpc) : Client :=
  { c with
    rpc := rpc, call := c.message rpc, retries := 0,
    statics := { c.statics with rpcId := (c.statics.rpcId + 1) % 2 ^ 32 } }.transmit

def return_ : Client := { c with status := .returned rc }

/-- `nfs_umountall`, and `nfs` then returns `rc`. -/
def umountall : Client :=
  if c.cfg.serverIp = 0 ∨ c.statics.mountPort = -1 ∨ c.statics.fsMounted = false then c.return_ rc
  else c.begin (.umountall rc)

/-! ## The way to the file -/

/-- Both ports have been asked for. -/
def havePorts : Client :=
  if c.statics.nfsPort = -1 ∨ c.statics.mountPort = -1 then c.return_ 0 else c.begin .mount

def needNfsPort : Client :=
  if c.statics.nfsPort = -1 then c.begin .nfsPort else c.havePorts

def needMountPort : Client :=
  if c.statics.mountPort = -1 then c.begin .mountPort else c.needNfsPort

/-- The label `nfssymlink`: the path is cut into directory and file. The search for the slash begins at
    the end of the first path. -/
def nfssymlink : Client :=
  if c.recursion > maxLinkDepth then c.return_ 0
  else
    match lastSlash c.dirname c.namelen with
    | none => { c with recursion := c.recursion + 1 }.return_ 0
    | some i =>
      { c with
        recursion := c.recursion + 1, dirname := c.dirname.set i 0, fname := i + 1 }.needMountPort

/-- The file has been found. -/
def beginRead : Client :=
  { c with offs := 0, block := 1, size := -1, len := readSize }.begin .read

/-! ## Blocks -/

/-- The size of the file: it is found out with the first block. -/
def sizeOf : Int := if c.size = -1 then int32 (p.data 6) else c.size

def rlen : Int := min (int32 (p.data 18)) c.len

/-- The call of `fnc` for a block. -/
def pass : Block :=
  ⟨p.body.slice (Packet.dataOffset 19) (c.rlen p).toNat, c.block, c.rlen p,
    decide (int32 (c.offs + c.rlen p) = c.sizeOf p), rc⟩

/-- The loop goes on behind a block. -/
def advance (rlen : Int) : Client :=
  let offs := int32 (c.offs + rlen)
  let left := int32 (c.size - offs)
  let c := { c with block := c.block + 1, offs := offs, len := if left < readSize then left else c.len }
  if c.len ≠ 0 then c.begin .read else c.return_ 1

/-- A block has come. -/
def onBlock : Client :=
  let c' := { c with size := c.sizeOf p, blocks := c.blocks ++ [c.pass p rc] }
  if rc ≤ 0 then c'.umountall rc else c'.advance (c.rlen p)

/-! ## Results -/

/-- What follows a call that has returned `err`, if it has not brought a reply of its own. -/
def onError (err : Int) : Client :=
  match c.rpc with
  | .mountPort => { c with statics := { c.statics with mountPort := err } }.needNfsPort
  | .nfsPort => { c with statics := { c.statics with nfsPort := err } }.havePorts
  | .mount | .lookup | .readlink => c.umountall 0
  | .read =>
    if err ≤ -errIsdir ∧ err ≥ -errInval ∧ c.offs = 0 then c.begin .readlink else c.umountall 0
  | .umountall rc => c.return_ rc

/-- `nfs_mount` takes the handle of the directory from a reply. -/
def mounted : Client :=
  if p.Succeeded then
    { c with
      statics := { c.statics with fsMounted := true },
      dirfh := p.body.slice (Packet.dataOffset 1) fhSize }
  else c

/-- `nfs_lookup` takes the handle of the file. -/
def lookedUp : Client :=
  if p.Succeeded then { c with filefh := p.body.slice (Packet.dataOffset 1) fhSize } else c

/-- `nfs_readlink` takes the text of the link. -/
def linkRead : Client :=
  if p.Succeeded then { c with dirname := followLink c.dirname (text p.body (Packet.dataOffset 2)) }
  else c

/-- A reply that `await_rpc` has let through. -/
def onReply : Client :=
  match c.rpc with
  | .mountPort | .nfsPort => c.onError p.port
  | .mount => if p.result ≠ 0 then (c.mounted p).onError p.result else (c.mounted p).begin .lookup
  | .lookup => if p.result ≠ 0 then (c.lookedUp p).onError p.result else (c.lookedUp p).beginRead
  | .read => if p.result ≠ 0 then c.onError p.result else c.onBlock p rc
  | .readlink => if p.result ≠ 0 then (c.linkRead p).onError p.result else (c.linkRead p).nfssymlink
  | .umountall rc => { c with statics := { c.statics with fsMounted := false } }.return_ rc

/-- The wait for a reply is over: the call is sent again, or has failed. -/
def onTimeout : Client :=
  let c := { c with retries := c.retries + 1 }
  if c.retries < maxRpcRetries then c.transmit else { c with exhausted := true }.onError (-1)

end Client

/-! ## The machine -/

inductive Event where
  | timeout
  | packet (p : Packet) (rc : Int)

namespace Client

def turn (c : Client) : Event → Client
  | .timeout => c.onTimeout
  | .packet p rc =>
    if p.awaitRpc c.cfg.clientIp (c.source c.rpc) c.call.id then c.onReply p rc else c

def step (c : Client) (e : Event) : Client := if c.status = .waiting then c.turn e else c

/-- The variables when `nfs` begins. The stack, with `dirname` and the two handles on it, holds
    anything. -/
def initial (cfg : Config) (statics : Statics) (name : List UInt8) (stack : Store) : Client :=
  let oport := statics.oport + 1
  { cfg := cfg,
    statics := { statics with oport := if oport > startOport + oportSweep then startOport else oport },
    sport := statics.oport, namelen := name.length, dirname := stack.splice 0 (name ++ [0]), fname := 0,
    dirfh := stack.slice 300 fhSize, filefh := stack.slice (300 + fhSize) fhSize, recursion := 0,
    block := 0, size := 0, offs := 0, len := 0, rpc := .mountPort, call := getportCall 0 0 0,
    retries := 0, status := .waiting, exhausted := false, blocks := [], sent := [] }

/-- The client up to its first wait. -/
def start (cfg : Config) (statics : Statics) (name : List UInt8) (stack : Store) : Client :=
  (initial cfg statics name stack).nfssymlink

end Client

end Nfs
