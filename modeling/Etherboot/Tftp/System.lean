import Etherboot.Lib.Transition
import Etherboot.Tftp.Oack

set_option autoImplicit false

/-! # A TFTP client, a server and the network between them

The client is `Client`; the server is any that keeps to the TFTP protocol and its option extension
and serves one file `F` in blocks of `b` bytes. Each request it receives, a duplicate of an earlier one
included, opens a transfer of its own, which sends the option acknowledgement or a block as often as
it likes and goes on to the next block when it receives the acknowledgement of the one before.

What has been sent stays in flight for good and may be delivered any number of times, at any time, or
never: that is loss, duplication and reordering. Delays are bounded by one condition: nothing is
received that the transfer has left `2^15` blocks or more behind, which is what block numbers of 16
bits can tell apart. -/

namespace Tftp

open Memory

section Server

variable (F : List UInt8) (b : Nat)

/-- Block `n` of the file, counting from 1. -/
def chunk (n : Nat) : List UInt8 := (F.drop ((n - 1) * b)).take b

/-- The blocks of a transfer; the last is the one shorter than `b`, and may be empty. -/
def blockCount : Nat := F.length / b + 1

/-- What the server sends. -/
inductive Msg where
  | oack (opts : List UInt8)
  | data (n : Nat)
  | error (text : List UInt8)

/-- The UDP payload of a message. Block numbers have 16 bits. -/
def Msg.payload : Msg → List UInt8
  | .oack opts => [0, 6] ++ opts
  | .data n => [0, 3, UInt8.ofNat (n / 256), UInt8.ofNat n] ++ chunk F b n
  | .error text => [0, 5] ++ text

end Server

/-- A transfer of the server between its port `tid` and the client's `cport`. It waits for the
    acknowledgement of block `n`, block 0 standing for the options. -/
structure Transfer where
  tid : UInt16
  cport : UInt16
  n : Nat

/-- A message in flight to the client. -/
structure Flight where
  src : UInt16
  dst : UInt16
  msg : Msg

structure World where
  client : Client
  transfers : List Transfer
  wire : List Flight

/-- A received packet with the payload `bytes`; the buffer behind it holds anything. -/
structure Packet.Carries (p : Packet) (bytes : List UInt8) : Prop where
  len : p.udpLen.toNat = 8 + bytes.length
  body : p.body.Has 0 bytes

/-- The steps of the client, the network and the server. -/
inductive Step (F : List UInt8) (b : Nat) : World → World → Prop where
  | timeout (w : World) (txOk : Bool) :
      Step F b w { w with client := w.client.step (.timeout txOk) }
  | deliver (w : World) (f : Flight) (p : Packet) (rc : Int) (hf : f ∈ w.wire)
      (hsrc : p.src = f.src) (hdst : p.dst = f.dst) (hp : p.Carries (f.msg.payload F b))
      (hlag : ∀ n, f.msg = .data n → w.client.calls.length < n + 2 ^ 15) :
      Step F b w { w with client := w.client.step (.packet p rc) }
  /- A server without options may answer a request by the first block, if it is of the size that goes
     without saying. -/
  | request (w : World) (k : Nat) (m : Sent) (name : List UInt8) (blksize tid : UInt16) (n : Nat)
      (hm : .sent k m ∈ w.client.log) (hrrq : m.xmit = .rrq name blksize)
      (hn : n = 0 ∨ b = defaultsizePacket ∧ n = 1) :
      Step F b w { w with transfers := w.transfers ++ [⟨tid, m.src, n⟩] }
  | sendOack (w : World) (t : Transfer) (opts : List UInt8) (ht : t ∈ w.transfers) (hn : t.n = 0)
      (hopts : Oack b opts) :
      Step F b w { w with wire := w.wire ++ [⟨t.tid, t.cport, .oack opts⟩] }
  | sendData (w : World) (t : Transfer) (ht : t ∈ w.transfers) (hn : 0 < t.n) :
      Step F b w { w with wire := w.wire ++ [⟨t.tid, t.cport, .data t.n⟩] }
  | sendError (w : World) (src dst : UInt16) (text : List UInt8) :
      Step F b w { w with wire := w.wire ++ [⟨src, dst, .error text⟩] }
  | acked (w : World) (before after : List Transfer) (t : Transfer) (k : Nat) (m : Sent)
      (ht : w.transfers = before ++ t :: after) (hm : .sent k m ∈ w.client.log)
      (hdst : m.dst = t.tid) (hsrc : m.src = t.cport) (hack : m.xmit = .ack (UInt16.ofNat t.n))
      (hlag : t.n < k + 2 ^ 15) (hmore : t.n < blockCount F b) :
      Step F b w { w with transfers := before ++ { t with n := t.n + 1 } :: after }

/-- A download of `F` that begins with any values in the client's static variables. -/
def system (F : List UInt8) (b : Nat) : Transition World where
  init w := ∃ s name txOk, w = ⟨Client.start s name txOk, [], []⟩
  step := Step F b

/-! ## The file in blocks -/

section Blocks

variable {F : List UInt8} {b : Nat}

theorem length_chunk (F : List UInt8) (b n : Nat) :
    (chunk F b n).length = min b (F.length - (n - 1) * b) := by
  simp [chunk]

/-- A block of the file is short exactly when it is the last. -/
theorem length_chunk_lt_iff (hb : 0 < b) {n : Nat} (hn : 0 < n) (hle : n ≤ blockCount F b) :
    (chunk F b n).length < b ↔ n = blockCount F b := by
  rw [length_chunk]
  unfold blockCount at *
  have hdiv := Nat.div_add_mod F.length b
  have hmod := Nat.mod_lt F.length hb
  rcases Nat.lt_or_ge n (F.length / b + 1) with hlt | hge
  · have hmul : n * b ≤ F.length / b * b := Nat.mul_le_mul_right b (by omega)
    have hsplit : n * b = (n - 1) * b + b := by
      rw [← Nat.succ_mul, Nat.succ_eq_add_one, Nat.sub_add_cancel hn]
    rw [Nat.mul_comm b] at hdiv
    omega
  · obtain rfl : n = F.length / b + 1 := by omega
    rw [Nat.mul_comm b] at hdiv
    refine iff_of_true (Nat.lt_of_le_of_lt (Nat.min_le_right _ _) ?_) rfl
    rw [Nat.add_sub_cancel]
    omega

/-- The first `n` blocks together are the file up to a multiple of the block size, or to its end. -/
theorem flatten_chunks (F : List UInt8) (b n : Nat) :
    ((List.range n).map (fun i => chunk F b (i + 1))).flatten = F.take (n * b) := by
  induction n with
  | zero => simp
  | succ n ih =>
    rw [List.range_succ, List.map_append, List.flatten_append, ih, Nat.succ_mul, List.take_add]
    simp [chunk]

end Blocks

end Tftp
