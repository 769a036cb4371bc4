import Etherboot.Slam.Clients
import Etherboot.Slam.Server

set_option autoImplicit false

/-! # The SLAM server as a state machine

The loop of `mini-slamd`'s `main`. `STATE_WAITING` takes a status packet and opens the file,
`STATE_TRANSMITTING` sends one packet of it, `STATE_RECEIVING` empties the queue of what clients have
sent meanwhile, and `STATE_PINGING` asks the next client for its status.

What comes from the system at each turn is in an `Env`. A status packet is answered to its end only
if every run of packets it asks for is one: a run of no packets makes the count wrap around, and at
the end of the file the server tries to read the same packet for ever. -/

namespace Slam

open Memory

def slamMaxNack : Nat := 1500 - (20 + 8)

/-- An Ethernet frame without the headers and the three integers in front of a packet's number. -/
def slamBlockSize : Nat := 1500 - (20 + 8 + (7 + 7 + 7))

def afUnspec : UInt16 := 0

inductive Phase where
  | pinging
  | waiting
  | receiving
  | transmitting
  deriving DecidableEq, Repr

/-- A file on the server. Its size is an `off_t`, which is as long as a `long`. -/
structure FileImage (long : Nat) where
  bytes : List UInt8
  mtime : Nat
  size_lt : bytes.length < 2 ^ (8 * long - 1)

/-- What `poll` and `recvfrom` bring: nothing in time, an error, or a packet. -/
inductive Arrival where
  | silence
  | failure
  | packet (src : SockaddrIn) (bytes : List UInt8)

/-- What becomes of `open`, `lseek` and `fstat`. -/
inductive Opening (long : Nat) where
  | notOpened
  | notSought
  | notStated (size : Nat)
  | opened (file : FileImage long)

/-- What the system does in a turn: what has arrived, whether the file opens, and whether `read` and
    `sendto` succeed. -/
structure Env (long : Nat) where
  arrival : Arrival
  opening : Opening long
  reads : Bool
  sends : Bool

/-- A packet sent: a request for a client's status, or a packet of the file with its number. -/
inductive Sent where
  | request (client : SockaddrIn) (bytes : List UInt8)
  | data (packet : Nat) (bytes : List UInt8)
  deriving DecidableEq, Repr

/-- The variables of `main`, and a log of what is sent. -/
structure Daemon (long : Nat) where
  phase : Phase
  clients : Clients
  masterClient : SockaddrIn
  nackPacket : Store
  nackLen : Nat
  server : Server
  size : Nat
  transaction : Nat
  file : Option (FileImage long)
  sent : List Sent

/-- The file as the packets are made from it. -/
def FileImage.source {long : Nat} (f : FileImage long) : Source :=
  { long := long, transaction := f.mtime, blockSize := slamBlockSize, file := f.bytes }

namespace Daemon

variable {long : Nat} (d : Daemon long) (e : Env long)

/-- `STATE_PINGING` -/
def ping : Daemon long :=
  if d.clients.clients = 0 then
    { d with phase := .waiting, masterClient := { d.masterClient with sinFamily := afUnspec } }
  else
    let client := d.clients.client 0
    let (len, buf) := encodeAll long 20 [d.transaction, d.size, slamBlockSize] (0, fun _ => 0)
    { d with
      phase := .waiting, masterClient := client, clients := d.clients.delClient client,
      sent := if e.sends then d.sent ++ [.request client (buf.slice 0 len)] else d.sent }

/-- The file is opened again. A descriptor that `main` does not go on with is not used before it is
    closed. -/
def openFile : Opening long → Daemon long
  | .notOpened => { d with file := none }
  | .notSought => { d with file := none, size := 2 ^ (8 * long) - 1 }
  | .notStated size => { d with file := none, size := size }
  | .opened f =>
    { d with
      file := some f, size := f.bytes.length, transaction := f.mtime, phase := .transmitting }

/-- A packet is received as a status packet. When it cannot be decoded, `packet` and `packet_count` are
    not used before they are set again. -/
def takeNack (src : SockaddrIn) (bytes : List UInt8) (opening : Opening long) :
    Daemon long :=
  let bytes := bytes.take slamMaxNack
  let d :=
    { d with
      masterClient := src, clients := d.clients.delClient src,
      nackPacket := d.nackPacket.splice 0 bytes, nackLen := bytes.length }
  match nextRun long d.nackPacket d.nackLen 0 0 with
  | none => d
  | some s => { d with clients := d.clients.pushClient src, server := s }.openFile opening

/-- `STATE_WAITING`. Without a client to wait for there is no timeout. -/
def wait : Daemon long :=
  match e.arrival with
  | .silence => if d.masterClient.sinFamily = afUnspec then d else { d with phase := .pinging }
  | .failure => d
  | .packet src bytes => d.takeNack src bytes e.opening

/-- `STATE_RECEIVING`. An empty packet counts as none; a null in front is a client that leaves. -/
def receive : Daemon long :=
  match e.arrival with
  | .packet src (b :: _) =>
    { d with clients := if b = 0 then d.clients.delClient src else d.clients.addClient src }
  | _ => { d with phase := .transmitting }

/-- The next packet is found when one has been sent. -/
def advance : Daemon long :=
  match nextPacket long d.nackPacket d.nackLen d.server with
  | none => { d with phase := .pinging, file := none }
  | some s => { d with server := s }

/-- The current packet has been sent. -/
def send (bytes : List UInt8) : Daemon long :=
  { d with sent := d.sent ++ [.data d.server.packet bytes] }

/-- `STATE_TRANSMITTING` -/
def transmitting : Daemon long :=
  let d := { d with phase := .receiving }
  match d.file.bind (·.source.dataPacket d.server.packet) with
  | none => d
  | some data => if e.reads ∧ e.sends then (d.send data).advance else d

/-- A turn of the loop. -/
def step : Daemon long :=
  match d.phase with
  | .pinging => d.ping e
  | .waiting => d.wait e
  | .receiving => d.receive e
  | .transmitting => d.transmitting e

/-- The first `k` turns, in each of which the system does what `env` says. -/
def run (d : Daemon long) (env : Nat → Env long) : Nat → Daemon long
  | 0 => d
  | k + 1 => (d.run env k).step (env k)

end Daemon

/-! ## What a status packet asks for -/

variable {long : Nat}

/-- The runs of packets asked for from `ptr` on, each with its first packet and its length. A run takes
    up two bytes at least, so that `fin` runs are enough. -/
def askedRuns (long : Nat) (nack : Store) (fin : Nat) : Nat → Nat → Nat → List (Nat × Nat)
  | 0, _, _ => []
  | n + 1, packet, ptr =>
    match nextRun long nack fin 0 ptr with
    | none => []
    | some s =>
      (packet + s.packet, s.packetCount) ::
        askedRuns long nack fin n (packet + s.packet + s.packetCount) s.ptr

namespace Daemon

variable (d : Daemon long)

/-- The runs of the status packet received last. -/
def asked : List (Nat × Nat) := askedRuns long d.nackPacket d.nackLen d.nackLen 0 0

/-- The number of packets of the file that is open. -/
def packets : Nat := d.file.elim 0 (·.source.packets)

/-- A run of packets of the file: it is not empty, and its last packet exists. -/
def Holds (r : Nat × Nat) : Prop := 0 < r.2 ∧ r.1 + r.2 ≤ d.packets

instance (d : Daemon long) : DecidablePred d.Holds := fun r =>
  inferInstanceAs (Decidable (0 < r.2 ∧ r.1 + r.2 ≤ d.packets))

/-- The status packet asks for packets of the file only, and for some with every run. -/
def AsksForPackets : Prop := ∀ r ∈ d.asked, d.Holds r

instance (d : Daemon long) : Decidable d.AsksForPackets := List.decidableBAll _ d.asked

/-- The status packet asks for packet `q`. -/
def AsksFor (q : Nat) : Prop := ∃ r ∈ d.asked, r.1 ≤ q ∧ q < r.1 + r.2

/-- A packet of the file that the status packet asks for. -/
def Wanted (x : Sent) : Prop :=
  ∃ q bytes, x = .data q bytes ∧ q < d.packets ∧ d.AsksFor q ∧
    d.file.bind (·.source.dataPacket q) = some bytes

/-- The server comes back to asking its clients, and all it sends up to then is what it was asked for. -/
def Answers (env : Nat → Env long) : Prop :=
  ∃ k sent, (d.run env k).phase = .pinging ∧ (d.run env k).sent = d.sent ++ sent ∧
    ∀ x ∈ sent, d.Wanted x

end Daemon

/-! ## The runs of a status packet -/

variable {nack : Store} {fin : Nat}

/-- What is found behind `ptr`, for whatever packet number it is counted from. -/
theorem nextRun_found (long : Nat) (nack : Store) (fin ptr : Nat) :
    (∀ p, nextRun long nack fin p ptr = none) ∨
      ∃ skip count ptr', (∀ p, nextRun long nack fin p ptr =
          some ⟨(p + skip) % 2 ^ (8 * long), count, ptr'⟩) ∧
        0 < long ∧ ptr < ptr' ∧ ptr' < fin ∧ skip < 2 ^ (8 * long - 1) ∧ count < 2 ^ (8 * long - 1) := by
  rcases hskip : slamDecode long nack ptr fin 0 with ⟨skip, ptr₁, err₁⟩
  by_cases herr : err₁ < 0
  · refine .inl fun p => ?_
    simp only [nextRun, hskip, if_pos herr]
  rcases hcount : slamDecode long nack ptr₁ fin err₁ with ⟨count, ptr₂, err₂⟩
  by_cases herr' : err₂ < 0
  · refine .inl fun p => ?_
    simp only [nextRun, hskip, if_neg herr, hcount, if_pos herr']
  obtain ⟨hlong, hlt, -, hv⟩ := slamDecode_ok hskip herr
  obtain ⟨-, hlt', hfin, hv'⟩ := slamDecode_ok hcount herr'
  refine .inr ⟨skip, count, ptr₂, fun p => ?_, hlong, by omega, hfin, hv, hv'⟩
  simp only [nextRun, hskip, if_neg herr, hcount, if_neg herr']

theorem half_add_half (h : 0 < long) : 2 ^ (8 * long - 1) + 2 ^ (8 * long - 1) = 2 ^ (8 * long) := by
  rw [← Nat.two_mul, ← Nat.pow_succ']
  congr 1
  omega

theorem dec_of_pos {c n : Nat} (hpos : 0 < c) (hlt : c < n) : (c + (n - 1)) % n = c - 1 := by
  rw [show c + (n - 1) = c - 1 + n by omega, Nat.add_mod_right, Nat.mod_eq_of_lt (by omega)]

/-- As long as the packets counted exist, no number of a packet wraps around. -/
theorem nextRun_of_lt {p : Nat} (hp : p < 2 ^ (8 * long - 1)) (ptr : Nat) :
    nextRun long nack fin p ptr =
      (nextRun long nack fin 0 ptr).map fun s => { s with packet := p + s.packet } := by
  rcases nextRun_found long nack fin ptr with
    hnone | ⟨skip, count, ptr', hsome, hlong, -, -, hskip, -⟩
  · rw [hnone, hnone, Option.map_none]
  · have hhalf := half_add_half hlong
    rw [hsome, hsome, Option.map_some, Nat.mod_eq_of_lt (by omega), Nat.mod_eq_of_lt (by omega),
      Nat.zero_add]

theorem nextRun_ok {p ptr : Nat} {s : Server} (h : nextRun long nack fin p ptr = some s) :
    0 < long ∧ ptr < s.ptr ∧ s.ptr < fin ∧ s.packetCount < 2 ^ (8 * long - 1) := by
  rcases nextRun_found long nack fin ptr with hnone | ⟨skip, count, ptr', hsome, hlong, hlt, hfin, -, hc⟩
  · rw [hnone] at h
    cases h
  · rw [hsome] at h
    cases h
    exact ⟨hlong, hlt, hfin, hc⟩

/-- One more turn than there are bytes left does not find one more run. -/
theorem askedRuns_succ {n p ptr : Nat} (h : fin ≤ n + ptr) :
    askedRuns long nack fin (n + 1) p ptr = askedRuns long nack fin n p ptr := by
  induction n generalizing p ptr with
  | zero =>
    rw [askedRuns, askedRuns]
    split
    · rfl
    · next s hs =>
        have := nextRun_ok hs
        omega
  | succ n ih =>
    rw [askedRuns]
    conv_rhs => rw [askedRuns]
    split
    · rfl
    · next s hs =>
        have := nextRun_ok hs
        rw [ih (by omega)]

theorem askedRuns_eq (long : Nat) (nack : Store) (fin p ptr : Nat) :
    askedRuns long nack fin fin p ptr =
      match nextRun long nack fin 0 ptr with
      | none => []
      | some s =>
        (p + s.packet, s.packetCount) ::
          askedRuns long nack fin fin (p + s.packet + s.packetCount) s.ptr := by
  rw [← askedRuns_succ (Nat.le_add_right ..), askedRuns]

/-! ## A packet is sent -/

theorem FileImage.packets_lt (f : FileImage long) : f.source.packets < 2 ^ (8 * long - 1) := by
  have hlt := f.size_lt
  have hle : f.source.packets ≤ f.bytes.length := by
    simp only [Source.packets, source, slamBlockSize]
    omega
  omega

theorem Source.dataPacket_of_offset {s : Source} {q : Nat} (hpos : 0 < s.blockSize)
    (h : q * s.blockSize % 2 ^ (8 * s.long) < s.file.length) : ∃ bytes, s.dataPacket q = some bytes := by
  simp only [dataPacket]
  rw [if_neg]
  · exact ⟨_, rfl⟩
  · rw [List.length_take, List.length_drop]
    omega

theorem FileImage.dataPacket_of_lt {f : FileImage long} {q : Nat} (h : q < f.source.packets) :
    ∃ bytes, f.source.dataPacket q = some bytes := by
  have hstart : q * slamBlockSize < f.bytes.length := start_lt (by decide) h
  refine Source.dataPacket_of_offset (show 0 < slamBlockSize by decide) ?_
  exact Nat.lt_of_le_of_lt (Nat.mod_le ..) hstart

namespace Daemon

variable {d : Daemon long}

theorem packets_lt (d : Daemon long) : d.packets < 2 ^ (8 * long - 1) := by
  rw [packets]
  cases d.file with
  | none => exact Nat.two_pow_pos _
  | some f => exact f.packets_lt

theorem dataPacket_of_lt {q : Nat} (h : q < d.packets) :
    ∃ bytes, d.file.bind (·.source.dataPacket q) = some bytes := by
  rw [packets] at h
  cases hfile : d.file with
  | none =>
    rw [hfile] at h
    cases h
  | some f =>
    rw [hfile] at h
    exact f.dataPacket_of_lt h

/-- The runs behind the current one. -/
def rest (d : Daemon long) : List (Nat × Nat) :=
  askedRuns long d.nackPacket d.nackLen d.nackLen (d.server.packet + d.server.packetCount) d.server.ptr

/-- The runs that are left of the status packet, what is left of the current one first. -/
def left (d : Daemon long) : List (Nat × Nat) := (d.server.packet, d.server.packetCount) :: d.rest

/-- How many packets are still to be sent. -/
def pending (d : Daemon long) : Nat := (d.left.map Prod.snd).sum

theorem advance_of_none (h : nextPacket long d.nackPacket d.nackLen d.server = none) :
    d.advance = { d with phase := .pinging, file := none } := by
  rw [advance, h]

theorem advance_of_some {s : Server} (h : nextPacket long d.nackPacket d.nackLen d.server = some s) :
    d.advance = { d with server := s } := by
  rw [advance, h]

/-- After a packet of a run that is one: the rest of the run comes next, or the next run, or there is
    none and the server is back. -/
theorem advance_of_holds (h : d.Holds (d.server.packet, d.server.packetCount)) :
    (∃ s, d.advance = { d with server := s } ∧ s.packetCount < 2 ^ (8 * long) ∧ d.rest ⊆ d.advance.left ∧
      d.advance.pending < d.pending ∧ ∀ r ∈ d.advance.left, r ∈ d.rest ∨
        0 < r.2 ∧ d.server.packet ≤ r.1 ∧ r.1 + r.2 ≤ d.server.packet + d.server.packetCount) ∨
    (d.advance = { d with phase := .pinging, file := none } ∧ d.rest = []) := by
  obtain ⟨hpos, hle⟩ := h
  have hlt := d.packets_lt
  have hhalf : 2 ^ (8 * long - 1) ≤ 2 ^ (8 * long) := Nat.pow_le_pow_right (by decide) (by omega)
  have hpacket : (d.server.packet + 1) % 2 ^ (8 * long) = d.server.packet + 1 :=
    Nat.mod_eq_of_lt (by omega)
  have hpackets : nextPacket long d.nackPacket d.nackLen d.server = if d.server.packetCount - 1 = 0 then
      nextRun long d.nackPacket d.nackLen (d.server.packet + 1) d.server.ptr
      else some ⟨d.server.packet + 1, d.server.packetCount - 1, d.server.ptr⟩ := by
    simp only [nextPacket, hpacket, dec_of_pos hpos (show _ < 2 ^ (8 * long) by omega)]
  have hpending : d.pending = d.server.packetCount + (d.rest.map Prod.snd).sum := rfl
  by_cases hone : d.server.packetCount = 1
  · rw [if_pos (by omega), nextRun_of_lt (by omega)] at hpackets
    have hrest : d.rest = _ := askedRuns_eq ..
    rw [hone] at hrest
    cases hnext : nextRun long d.nackPacket d.nackLen 0 d.server.ptr with
    | none =>
      rw [hnext] at hpackets hrest
      exact .inr ⟨advance_of_none hpackets, hrest⟩
    | some s =>
      rw [hnext] at hpackets hrest
      have hadvance := advance_of_some hpackets
      have hcount := (nextRun_ok hnext).2.2.2
      have hleft : d.advance.left = d.rest := by
        rw [hadvance, hrest]
        rfl
      refine .inl ⟨_, hadvance, by simp only; omega, hleft ▸ List.Subset.refl _, ?_, fun r hr => .inl (hleft ▸ hr)⟩
      rw [pending, hleft]
      omega
  · rw [if_neg (by omega)] at hpackets
    have hadvance := advance_of_some hpackets
    have hleft : d.advance.left = (d.server.packet + 1, d.server.packetCount - 1) :: d.rest := by
      rw [hadvance, left, rest, rest, show d.server.packet + 1 + (d.server.packetCount - 1) =
        d.server.packet + d.server.packetCount by omega]
    refine .inl ⟨_, hadvance, by simp only; omega, hleft ▸ List.subset_cons_self .., ?_, ?_⟩
    · rw [pending, hleft, List.map_cons, List.sum_cons]
      omega
    · rw [hleft, List.forall_mem_cons]
      exact ⟨.inr (by simp only; omega), fun r hr => .inl hr⟩

/-- A packet of a run that is not one: the count does not come to its end. -/
theorem advance_of_not_holds (hlong : 0 < long) (hc : d.server.packetCount < 2 ^ (8 * long))
    (hp : d.server.packet < d.packets) (h : ¬ d.Holds (d.server.packet, d.server.packetCount)) :
    ∃ count, d.advance = { d with server := ⟨d.server.packet + 1, count, d.server.ptr⟩ } ∧
      count < 2 ^ (8 * long) ∧ ¬ d.Holds (d.server.packet + 1, count) := by
  have hlt := d.packets_lt
  have hhalf := half_add_half hlong
  have hpacket : (d.server.packet + 1) % 2 ^ (8 * long) = d.server.packet + 1 :=
    Nat.mod_eq_of_lt (by omega)
  simp only [Holds, not_and, not_le] at h ⊢
  have hcount : d.packets <
      d.server.packet + 1 + (d.server.packetCount + (2 ^ (8 * long) - 1)) % 2 ^ (8 * long) := by
    by_cases hzero : d.server.packetCount = 0
    · rw [hzero, Nat.zero_add, Nat.mod_eq_of_lt (by omega)]
      omega
    · rw [dec_of_pos (by omega) hc]
      omega
  refine ⟨(d.server.packetCount + (2 ^ (8 * long) - 1)) % 2 ^ (8 * long), ?_,
    Nat.mod_lt _ (Nat.two_pow_pos _), fun _ => hcount⟩
  refine advance_of_some ?_
  simp only [nextPacket, hpacket]
  rw [if_neg (by omega)]

variable {e : Env long} {bytes : List UInt8} {d : Daemon long}

theorem transmitting_of_some
    (h : d.file.bind (·.source.dataPacket d.server.packet) = some bytes) (hr : e.reads) (hs : e.sends) :
    d.transmitting e = ({ d with phase := .receiving }.send bytes).advance := by
  simp only [transmitting, h]
  rw [if_pos ⟨hr, hs⟩]

theorem transmitting_of_none (h : d.file.bind (·.source.dataPacket d.server.packet) = none) :
    d.transmitting e = { d with phase := .receiving } := by
  simp only [transmitting, h]

/-- In `STATE_RECEIVING` only the clients change. Without a packet, the server goes on sending. -/
theorem receive_cases (d : Daemon long) (e : Env long) :
    (∃ clients, d.receive e = { d with clients := clients } ∧ ∃ src bytes, e.arrival = .packet src bytes) ∨
      d.receive e = { d with phase := .transmitting } := by
  rw [receive]
  split
  · next src b bytes harrival => exact .inl ⟨_, rfl, src, b :: bytes, harrival⟩
  · exact .inr rfl

/-! ## The server while it answers -/

/-- The server is at work on the status packet that it had at `d₀`. -/
structure Serving (d₀ d : Daemon long) : Prop where
  phase : d.phase = .transmitting ∨ d.phase = .receiving
  file : d.file = d₀.file
  nackPacket : d.nackPacket = d₀.nackPacket
  nackLen : d.nackLen = d₀.nackLen
  packetCount : d.server.packetCount < 2 ^ (8 * long)

variable {d₀ : Daemon long} {e : Env long}

theorem Serving.packets (h : Serving d₀ d) : d.packets = d₀.packets := by
  rw [Daemon.packets, Daemon.packets, h.file]

theorem Serving.holds (h : Serving d₀ d) {r : Nat × Nat} : d.Holds r ↔ d₀.Holds r := by
  rw [Holds, Holds, h.packets]

/-- With every run one of packets of the file, the server sends what is asked for. -/
structure Answering (d₀ d : Daemon long) : Prop extends Serving d₀ d where
  holds_left : ∀ r ∈ d.left, d₀.Holds r
  asked : ∀ r ∈ d.left, ∀ q, r.1 ≤ q → q < r.1 + r.2 → d₀.AsksFor q
  sent : ∃ sent, d.sent = d₀.sent ++ sent ∧ ∀ x ∈ sent, d₀.Wanted x

theorem Answering.sends (h : Answering d₀ d)
    (hdata : d.file.bind (·.source.dataPacket d.server.packet) = some bytes) :
    ∃ sent, d.sent ++ [.data d.server.packet bytes] = d₀.sent ++ sent ∧ ∀ x ∈ sent, d₀.Wanted x := by
  obtain ⟨hpos, hle⟩ := h.holds_left _ (List.mem_cons_self ..)
  obtain ⟨sent, hsent, hwanted⟩ := h.sent
  refine ⟨sent ++ [.data d.server.packet bytes], by rw [hsent, List.append_assoc], ?_⟩
  intro x hx
  rcases List.mem_append.mp hx with hx | hx
  · exact hwanted x hx
  · rw [List.mem_singleton.mp hx]
    have hasked := h.asked _ (List.mem_cons_self ..) d.server.packet (Nat.le_refl _)
      (Nat.lt_add_of_pos_right hpos)
    exact ⟨_, _, rfl, by omega, hasked, by rw [← h.file]; exact hdata⟩

/-- Runs that are parts of those left before are answered as they were. -/
theorem Answering.of_parts (h : Answering d₀ d) {d' : Daemon long} (hserving : Serving d₀ d')
    (hparts : ∀ r' ∈ d'.left, 0 < r'.2 ∧ ∃ r ∈ d.left, r.1 ≤ r'.1 ∧ r'.1 + r'.2 ≤ r.1 + r.2)
    (hsent : ∃ sent, d'.sent = d₀.sent ++ sent ∧ ∀ x ∈ sent, d₀.Wanted x) : Answering d₀ d' := by
  refine ⟨hserving, fun r' hr' => ?_, fun r' hr' q hle hlt => ?_, hsent⟩
  · obtain ⟨hpos, r, hr, -, hend⟩ := hparts r' hr'
    exact ⟨hpos, Nat.le_trans hend (h.holds_left r hr).2⟩
  · obtain ⟨-, r, hr, hstart, hend⟩ := hparts r' hr'
    exact h.asked r hr q (by omega) (by omega)

/-- A packet is sent: the server is back, or there is one packet less to send. -/
theorem Answering.transmitting (h : Answering d₀ d) (hphase : d.phase = .transmitting) (hr : e.reads)
    (hs : e.sends) :
    ((d.step e).phase = .pinging ∧ ∃ sent, (d.step e).sent = d₀.sent ++ sent ∧ ∀ x ∈ sent, d₀.Wanted x) ∨
      (Answering d₀ (d.step e) ∧ (d.step e).pending < d.pending) := by
  have hholds := h.holds.mpr (h.holds_left _ (List.mem_cons_self ..))
  have hlt : d.server.packet < d.packets := Nat.lt_of_lt_of_le (Nat.lt_add_of_pos_right hholds.1) hholds.2
  obtain ⟨bytes, hdata⟩ := d.dataPacket_of_lt hlt
  have hsent := h.sends hdata
  have hstep : d.step e = ({ d with phase := .receiving }.send bytes).advance := by
    rw [step, hphase]
    exact transmitting_of_some hdata hr hs
  rw [hstep]
  rcases advance_of_holds (d := { d with phase := .receiving }.send bytes) hholds with
    ⟨s, heq, hcount, -, hfewer, hparts⟩ | ⟨heq, -⟩
  · refine .inr ⟨h.of_parts ?_ (fun r hr => ?_) ?_, hfewer⟩
    · rw [heq]
      exact ⟨.inr rfl, h.file, h.nackPacket, h.nackLen, hcount⟩
    · rcases hparts r hr with hold | hpart
      · have hmem : r ∈ d.left := List.mem_cons_of_mem _ hold
        exact ⟨(h.holds_left r hmem).1, r, hmem, Nat.le_refl _, Nat.le_refl _⟩
      · exact ⟨hpart.1, _, List.mem_cons_self .., hpart.2⟩
    · rw [heq]
      exact hsent
  · refine .inl ?_
    rw [heq]
    exact ⟨rfl, hsent⟩

/-! ## Whole runs -/

/-- From turn `n` on no packets arrive. -/
def QuietFrom (env : Nat → Env long) (n : Nat) : Prop :=
  ∀ k, n ≤ k → ∀ src bytes, (env k).arrival ≠ .packet src bytes

variable {env : Nat → Env long} {n : Nat}

/-- The queue of packets is empty at some time, and the server sends again. -/
theorem reaches_transmitting (hquiet : QuietFrom env n) (j : Nat) {t : Nat} (hj : n ≤ t + j)
    (hphase : (d₀.run env t).phase = .receiving) :
    ∃ t' clients, d₀.run env t' = { d₀.run env t with clients := clients, phase := .transmitting } := by
  induction j generalizing t with
  | zero =>
    have hstep : d₀.run env (t + 1) = (d₀.run env t).receive (env t) := by rw [run, step, hphase]
    rcases (d₀.run env t).receive_cases (env t) with ⟨-, -, src, bytes, harrival⟩ | heq
    · exact absurd harrival (hquiet t hj src bytes)
    · exact ⟨t + 1, _, hstep.trans heq⟩
  | succ j ih =>
    have hstep : d₀.run env (t + 1) = (d₀.run env t).receive (env t) := by rw [run, step, hphase]
    rcases (d₀.run env t).receive_cases (env t) with ⟨clients, heq, -⟩ | heq
    · rw [heq] at hstep
      obtain ⟨t', clients', heq'⟩ := ih (t := t + 1) (by omega) (by rw [hstep]; exact hphase)
      exact ⟨t', clients', by rw [heq', hstep]⟩
    · exact ⟨t + 1, _, hstep.trans heq⟩

theorem Answering.sendsAgain (hquiet : QuietFrom env n) {t : Nat} (h : Answering d₀ (d₀.run env t)) :
    ∃ t', Answering d₀ (d₀.run env t') ∧ (d₀.run env t').phase = .transmitting ∧
      (d₀.run env t').pending = (d₀.run env t).pending := by
  rcases h.phase with hphase | hphase
  · exact ⟨t, h, hphase, rfl⟩
  · obtain ⟨t', clients, heq⟩ := reaches_transmitting hquiet n (Nat.le_add_left n t) hphase
    refine ⟨t', ?_, by rw [heq], by rw [heq]; rfl⟩
    rw [heq]
    exact ⟨⟨.inl rfl, h.file, h.nackPacket, h.nackLen, h.packetCount⟩, h.holds_left, h.asked, h.sent⟩

/-- The number of packets to be sent comes down to none. -/
theorem Answering.answers (hquiet : QuietFrom env n) (hio : ∀ k, (env k).reads ∧ (env k).sends) {t : Nat}
    (h : Answering d₀ (d₀.run env t)) : d₀.Answers env := by
  induction hm : (d₀.run env t).pending using Nat.strongRecOn generalizing t with
  | ind m ih =>
    obtain ⟨t', hanswering, hphase, hpending⟩ := h.sendsAgain hquiet
    rcases hanswering.transmitting hphase (hio t').1 (hio t').2 with ⟨hback, sent, hsent⟩ | ⟨hnext, hlt⟩
    · exact ⟨t' + 1, sent, hback, hsent⟩
    · exact ih _ (by rw [hpending, hm] at hlt; exact hlt) (t := t' + 1) hnext rfl

theorem sent_advance (d : Daemon long) : d.advance.sent = d.sent := by
  rw [advance]
  split <;> rfl

theorem sent_takeNack (d : Daemon long) (src : SockaddrIn) (bytes : List UInt8) (o : Opening long) :
    (d.takeNack src bytes o).sent = d.sent := by
  simp only [takeNack]
  split
  · rfl
  · cases o with
    | notOpened => rfl
    | notSought => rfl
    | notStated size => rfl
    | opened f => rfl

theorem sent_step (d : Daemon long) (e : Env long) : ∃ sent, (d.step e).sent = d.sent ++ sent := by
  have hsame {d' : Daemon long} (h : d'.sent = d.sent) : ∃ sent, d'.sent = d.sent ++ sent :=
    ⟨[], by rw [h, List.append_nil]⟩
  rw [step]
  split
  · rw [ping]
    split
    · exact hsame rfl
    · cases e.sends with
      | false => exact hsame rfl
      | true => exact ⟨_, rfl⟩
  · rw [wait]
    split
    · split
      · exact hsame rfl
      · exact hsame rfl
    · exact hsame rfl
    · exact hsame (d.sent_takeNack ..)
  · rcases d.receive_cases e with ⟨clients, heq, -⟩ | heq
    · exact hsame (by rw [heq])
    · exact hsame (by rw [heq])
  · simp only [transmitting]
    split
    · exact hsame rfl
    · split
      · exact ⟨_, sent_advance _⟩
      · exact hsame rfl

/-- The server has sent what it was not asked for, or is at work on a run that it cannot finish. -/
def Doomed (d₀ d : Daemon long) : Prop :=
  ∃ sent, d.sent = d₀.sent ++ sent ∧
    ((∃ x ∈ sent, ¬ d₀.Wanted x) ∨ (Serving d₀ d ∧ ∃ r ∈ d.left, ¬ d₀.Holds r))

theorem Doomed.transmitting (hlong : 0 < long) (hserving : Serving d₀ d) (hphase : d.phase = .transmitting)
    {sent : List Sent} (hsent : d.sent = d₀.sent ++ sent) {r : Nat × Nat} (hr : r ∈ d.left)
    (hnot : ¬ d₀.Holds r) : Doomed d₀ (d.step e) := by
  obtain ⟨-, hfile, hnack, hlen, hcount⟩ := id hserving
  have hstep : d.step e = d.transmitting e := by rw [Daemon.step, hphase]
  rw [hstep]
  have hidle : Doomed d₀ { d with phase := .receiving } :=
    ⟨sent, hsent, .inr ⟨⟨.inr rfl, hfile, hnack, hlen, hcount⟩, r, hr, hnot⟩⟩
  cases hdata : d.file.bind (·.source.dataPacket d.server.packet) with
  | none => rwa [transmitting_of_none hdata]
  | some bytes =>
    by_cases hio : e.reads ∧ e.sends
    · rw [transmitting_of_some hdata hio.1 hio.2]
      have hsent' : d.sent ++ [.data d.server.packet bytes] =
          d₀.sent ++ (sent ++ [.data d.server.packet bytes]) := by
        rw [hsent, List.append_assoc]
      refine ⟨sent ++ [Sent.data d.server.packet bytes], (sent_advance _).trans hsent', ?_⟩
      -- A run that is one leaves the one that is not among those behind it.
      by_cases hcur : d.Holds (d.server.packet, d.server.packetCount)
      · have hrest : r ∈ d.rest := by
          rcases List.mem_cons.mp hr with rfl | hmem
          · exact absurd (hserving.holds.mp hcur) hnot
          · exact hmem
        rcases advance_of_holds (d := { d with phase := .receiving }.send bytes) hcur with
          ⟨s, heq, hcount', hleft, -⟩ | ⟨-, hnone⟩
        · exact .inr ⟨by rw [heq]; exact ⟨.inr rfl, hfile, hnack, hlen, hcount'⟩, r, hleft hrest, hnot⟩
        · rw [show d.rest = [] from hnone] at hrest
          cases hrest
      · by_cases hlt : d.server.packet < d.packets
        · obtain ⟨count, heq, hcount', hnext⟩ := advance_of_not_holds
            (d := { d with phase := .receiving }.send bytes) hlong hcount hlt hcur
          rw [heq]
          have hserving' : Serving d₀ { d.send bytes with
              phase := .receiving, server := ⟨d.server.packet + 1, count, d.server.ptr⟩ } :=
            ⟨.inr rfl, hfile, hnack, hlen, hcount'⟩
          exact .inr ⟨hserving', _, List.mem_cons_self .., fun h => hnext (hserving'.holds.mpr h)⟩
        · refine .inl ⟨_, List.mem_append_right _ (List.mem_singleton.mpr rfl), ?_⟩
          rintro ⟨q, bytes', hq, hexists, -⟩
          cases hq
          rw [← hserving.packets] at hexists
          exact hlt hexists
    · have hfailed : d.transmitting e = { d with phase := .receiving } := by
        simp only [Daemon.transmitting, hdata]
        rw [if_neg hio]
      rwa [hfailed]

theorem Doomed.step (hlong : 0 < long) (h : Doomed d₀ d) : Doomed d₀ (d.step e) := by
  obtain ⟨sent, hsent, ⟨x, hx, hbad⟩ | ⟨hserving, r, hr, hnot⟩⟩ := h
  · obtain ⟨more, hmore⟩ := d.sent_step e
    exact ⟨sent ++ more, by rw [hmore, hsent, List.append_assoc],
      .inl ⟨x, List.mem_append_left _ hx, hbad⟩⟩
  · rcases hserving.phase with hphase | hphase
    · exact Doomed.transmitting hlong hserving hphase hsent hr hnot
    · have hstep : d.step e = d.receive e := by rw [Daemon.step, hphase]
      rw [hstep]
      obtain ⟨hphase, hfile, hnack, hlen, hcount⟩ := hserving
      rcases d.receive_cases e with ⟨clients, heq, -⟩ | heq
      · rw [heq]
        exact ⟨sent, hsent, .inr ⟨⟨hphase, hfile, hnack, hlen, hcount⟩, r, hr, hnot⟩⟩
      · rw [heq]
        exact ⟨sent, hsent, .inr ⟨⟨.inl rfl, hfile, hnack, hlen, hcount⟩, r, hr, hnot⟩⟩

theorem Doomed.run (hlong : 0 < long) (h : Doomed d₀ d₀) (env : Nat → Env long) (k : Nat) :
    Doomed d₀ (d₀.run env k) := by
  induction k with
  | zero => exact h
  | succ k ih => exact ih.step hlong

theorem Doomed.not_answers (hlong : 0 < long) (h : Doomed d₀ d₀) : ¬ d₀.Answers env := by
  rintro ⟨k, sent, hphase, hsent, hwanted⟩
  obtain ⟨sent', hsent', ⟨x, hx, hbad⟩ | ⟨hserving, -⟩⟩ := h.run hlong env k
  · obtain rfl : sent = sent' := List.append_cancel_left (hsent.symm.trans hsent')
    exact hbad (hwanted x hx)
  · rcases hserving.phase with hphase' | hphase'
    · cases hphase.symm.trans hphase'
    · cases hphase.symm.trans hphase'

/-- The server begins to send with the first run of the status packet it has received. -/
theorem takeNack_enters {src : SockaddrIn} {o : Opening long}
    (hwait : d.phase = .waiting) (henter : (d.takeNack src bytes o).phase = .transmitting) :
    nextRun long (d.takeNack src bytes o).nackPacket (d.takeNack src bytes o).nackLen 0 0 =
      some (d.takeNack src bytes o).server := by
  have hphase : ¬ d.phase = .transmitting := by
    rw [hwait]
    decide
  simp only [takeNack] at henter ⊢
  cases hnext : nextRun long (d.nackPacket.splice 0 (bytes.take slamMaxNack))
      (bytes.take slamMaxNack).length 0 0 with
  | none =>
    rw [hnext] at henter
    exact absurd henter hphase
  | some s =>
    rw [hnext] at henter
    cases o with
    | notOpened => exact absurd henter hphase
    | notSought => exact absurd henter hphase
    | notStated size => exact absurd henter hphase
    | opened f => exact hnext

theorem step_enters (hwait : d.phase = .waiting) (henter : (d.step e).phase = .transmitting) :
    nextRun long (d.step e).nackPacket (d.step e).nackLen 0 0 = some (d.step e).server := by
  have hphase : ¬ d.phase = .transmitting := by
    rw [hwait]
    decide
  have hstep : d.step e = d.wait e := by rw [step, hwait]
  rw [hstep] at henter ⊢
  cases harrival : e.arrival with
  | silence =>
    simp only [wait, harrival] at henter
    split at henter
    · exact absurd henter hphase
    · cases henter
  | failure =>
    simp only [wait, harrival] at henter
    exact absurd henter hphase
  | packet src bytes =>
    have htake : d.wait e = d.takeNack src bytes e.opening := by simp only [wait, harrival]
    rw [htake] at henter ⊢
    exact takeNack_enters hwait henter

/-- All runs of a status packet are left when the server begins to send. -/
theorem left_of_nextRun (h : nextRun long d.nackPacket d.nackLen 0 0 = some d.server) :
    d.left = d.asked := by
  rw [asked, askedRuns_eq, h]
  simp only [Nat.zero_add]
  rfl

theorem serving_of_entered (hwait : d.phase = .waiting)
    (henter : (d.step e).phase = .transmitting) : Serving (d.step e) (d.step e) := by
  obtain ⟨hlong, -, -, hcount⟩ := nextRun_ok (step_enters hwait henter)
  have hhalf := half_add_half hlong
  exact ⟨.inl henter, rfl, rfl, rfl, by omega⟩

/-- A run that is not one of packets of the file keeps the server from coming back. -/
theorem asksForPackets_of_answers (hwait : d.phase = .waiting)
    (henter : (d.step e).phase = .transmitting) {env : Nat → Env long}
    (hanswers : (d.step e).Answers env) : (d.step e).AsksForPackets := by
  have hfirst := step_enters hwait henter
  intro r hr
  by_contra hnot
  have hdoomed : Doomed (d.step e) (d.step e) :=
    ⟨[], (List.append_nil _).symm,
      .inr ⟨serving_of_entered hwait henter, r, by rwa [left_of_nextRun hfirst], hnot⟩⟩
  exact hdoomed.not_answers (nextRun_ok hfirst).1 hanswers

/-- For a status packet that makes the server send, with packets arriving for a limited time only and
    with nothing failing, the server comes back having sent what it was asked for exactly if every run
    is one of packets of the file. -/
theorem answers_iff {d : Daemon long} {e : Env long} (hwait : d.phase = .waiting)
    (henter : (d.step e).phase = .transmitting) {env : Nat → Env long} {n : Nat}
    (hquiet : QuietFrom env n) (hio : ∀ k, (env k).reads ∧ (env k).sends) :
    (d.step e).Answers env ↔ (d.step e).AsksForPackets := by
  refine ⟨asksForPackets_of_answers hwait henter, fun hasks => ?_⟩
  have hleft := left_of_nextRun (step_enters hwait henter)
  have hanswering : Answering (d.step e) ((d.step e).run env 0) :=
    ⟨serving_of_entered hwait henter, fun r hr => hasks r (hleft ▸ hr),
      fun r hr q hle hlt => ⟨r, hleft ▸ hr, hle, hlt⟩, [], (List.append_nil _).symm, by simp⟩
  exact hanswering.answers hquiet hio

/-! ## The packets sent, one by one -/

/-- The packet of the file with a number, as it is sent. -/
def packetOf (d : Daemon long) (q : Nat) : Sent := .data q ((d.file.bind (·.source.dataPacket q)).getD [])

theorem step_sends {d : Daemon long} {e : Env long} (hphase : d.phase = .transmitting)
    (hlt : d.server.packet < d.packets) (hr : e.reads) (hs : e.sends) :
    d.step e = match nextPacket long d.nackPacket d.nackLen d.server with
      | none => { d with phase := .pinging, file := none, sent := d.sent ++ [d.packetOf d.server.packet] }
      | some s => { d with phase := .receiving, server := s, sent := d.sent ++ [d.packetOf d.server.packet] } := by
  obtain ⟨bytes, hdata⟩ := d.dataPacket_of_lt hlt
  rw [step, hphase]
  rw [transmitting_of_some hdata hr hs, advance, packetOf, hdata]
  rfl

/-- The packets whose numbers `transmit` lists are sent, if they exist. -/
theorem run_transmit {d₀ : Daemon long} {env : Nat → Env long} {n : Nat} (hquiet : QuietFrom env n)
    (hio : ∀ k, (env k).reads ∧ (env k).sends) {fuel t : Nat} {ns : List Nat}
    (hphase : (d₀.run env t).phase = .transmitting)
    (htransmit : transmit long (d₀.run env t).nackPacket (d₀.run env t).nackLen fuel (d₀.run env t).server =
      some ns) (hns : ∀ q ∈ ns, q < (d₀.run env t).packets) :
    ∃ t', (d₀.run env t').phase = .pinging ∧
      (d₀.run env t').sent = (d₀.run env t).sent ++ ns.map (d₀.run env t).packetOf := by
  induction fuel generalizing t ns with
  | zero => cases htransmit
  | succ fuel ih =>
    have hstep (hmem : (d₀.run env t).server.packet ∈ ns) : d₀.run env (t + 1) = _ :=
      step_sends hphase (hns _ hmem) (hio t).1 (hio t).2
    rw [transmit] at htransmit
    cases hnext : nextPacket long (d₀.run env t).nackPacket (d₀.run env t).nackLen (d₀.run env t).server with
    | none =>
      rw [hnext] at htransmit hstep
      cases htransmit
      have hback := hstep (List.mem_singleton_self _)
      exact ⟨t + 1, by rw [hback], by rw [hback]; rfl⟩
    | some s =>
      rw [hnext] at htransmit hstep
      obtain ⟨ns', htransmit', rfl⟩ := Option.map_eq_some_iff.mp htransmit
      have hsent := hstep (List.mem_cons_self ..)
      obtain ⟨t₁, clients, heq⟩ := reaches_transmitting hquiet n (Nat.le_add_left n (t + 1)) (by rw [hsent])
      rw [hsent] at heq
      have hrest (q : Nat) (hq : q ∈ ns') : q < (d₀.run env t₁).packets := by
        rw [heq]
        exact hns q (List.mem_cons_of_mem _ hq)
      obtain ⟨t', hback, hrest⟩ := ih (t := t₁) (by rw [heq]) (by rw [heq]; exact htransmit') hrest
      refine ⟨t', hback, ?_⟩
      rw [hrest, heq, List.map_cons]
      exact (List.append_cons ..).symm

/-- **The loop sends what `answer` says**, packet by packet, to a status packet that makes it send. -/
theorem step_answer {d : Daemon long} {e : Env long} (hwait : d.phase = .waiting)
    (henter : (d.step e).phase = .transmitting) {env : Nat → Env long} {n : Nat}
    (hquiet : QuietFrom env n) (hio : ∀ k, (env k).reads ∧ (env k).sends) {fuel : Nat} {ns : List Nat}
    (hanswer : answer long (d.step e).nackPacket (d.step e).nackLen fuel = some ns)
    (hns : ∀ q ∈ ns, q < (d.step e).packets) :
    ∃ k, ((d.step e).run env k).phase = .pinging ∧
      ((d.step e).run env k).sent = (d.step e).sent ++ ns.map (d.step e).packetOf := by
  rw [answer, step_enters hwait henter] at hanswer
  exact run_transmit hquiet hio (t := 0) henter hanswer hns

end Daemon

/-! ## Two status packets for a small file -/

/-- A server on a 32-bit machine that has just been started. -/
def startedDaemon : Daemon 4 :=
  { phase := .waiting, clients := ⟨fun _ => ⟨0, 0, 0, 0⟩, 0⟩, masterClient := ⟨0, 0, 0, 0⟩,
    nackPacket := fun _ => 0, nackLen := 0, server := ⟨0, 0, 0⟩, size := 0, transaction := 0,
    file := none, sent := [] }

/-- A file of one packet. -/
def smallFile : FileImage 4 := { bytes := [1, 2, 3], mtime := 5, size_lt := by decide }

/-- A status packet arrives, and the file can be opened. -/
def statusEnv (bytes : List UInt8) : Env 4 :=
  { arrival := .packet ⟨2, 10000, 0x0100000a, 0⟩ bytes, opening := .opened smallFile, reads := true,
    sends := true }

def quietEnv : Env 4 := { arrival := .silence, opening := .notOpened, reads := true, sends := true }

theorem quietEnv_quiet : Daemon.QuietFrom (fun _ => quietEnv) 0 := by
  intro k hk src bytes harrival
  cases harrival

/-- Leave out none and send one, which is all there is. -/
theorem startedDaemon_answers :
    (startedDaemon.step (statusEnv [0x20, 0x21, 0])).Answers (fun _ => quietEnv) :=
  (Daemon.answers_iff (by decide) (by decide +kernel) quietEnv_quiet (fun _ => ⟨rfl, rfl⟩)).mpr
    (by decide +kernel)

/-- Leave out none and send none: the server sends a packet all the same, and is then stuck behind
    the end of the file. -/
theorem startedDaemon_stuck :
    (startedDaemon.step (statusEnv [0x20, 0x20, 0])).phase = .transmitting ∧
      ¬ (startedDaemon.step (statusEnv [0x20, 0x20, 0])).Answers (fun _ => quietEnv) := by
  have henter : (startedDaemon.step (statusEnv [0x20, 0x20, 0])).phase = .transmitting := by
    decide +kernel
  refine ⟨henter, fun hanswers => ?_⟩
  exact absurd (Daemon.asksForPackets_of_answers (by decide) henter hanswers) (by decide +kernel)

end Slam
