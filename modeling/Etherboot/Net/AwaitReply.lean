import Etherboot.Lib.Memory
import Etherboot.Net.Checksum

set_option autoImplicit false

/-! # Header processing of received frames (`await_reply`, `tcpudpchksum`)

What `await_reply` does with one frame before it calls the reply function: the Ethernet type, the
IP header and its checksum, the removal of IP options, the UDP and TCP length and checksum tests.
The frame starts at index `0` of the receive buffer; behind its `packetlen` bytes the buffer holds
whatever earlier packets left there. Each part is a `Prog`, so that the bytes it reads and writes are
part of its meaning, and has a `run_` lemma for what it computes and a `within_` lemma for where it
looks. `unsigned int` arithmetic wraps at `2^32`. -/

namespace Net

open Prog Memory OnesComplement

abbrev ethHlen : Nat := 14

abbrev ethPIp : Nat := 0x0800

abbrev ethMaxMtu : Nat := 1500

abbrev ethFrameLen : Nat := 1514

abbrev ipTcp : UInt8 := 6

abbrev ipUdp : UInt8 := 17

abbrev sizeofIphdr : Nat := 20

abbrev sizeofUdphdr : Nat := 8

abbrev sizeofTcphdr : Nat := 20

/-! ## Reading fields -/

/-- `ntohs` of the 16-bit field at `p`. -/
def readBe16 (p : Nat) : Prog Nat := do
  let hi ← readByte p
  let lo ← readByte (p + 1)
  pure (256 * hi.toNat + lo.toNat)

@[simp] theorem run_readBe16 (p : Nat) (b : Store) : (readBe16 p).run b = (be16 b p, b) := rfl

variable {n packetlen iplen : Nat} {b : Store}

@[simp] theorem within_readBe16 {p : Nat} : (readBe16 p).Within n b ↔ p + 1 < n := by
  simp only [readBe16, within_bind, within_readByte, within_pure, and_true]
  omega

/-- `ipchksum(data, length)` on the buffer. -/
def ipchksumAt (p n : Nat) : Prog Nat := do
  let data ← readBytes p n
  pure (ipchksum data)

@[simp] theorem run_ipchksumAt (p n : Nat) (b : Store) :
    (ipchksumAt p n).run b = (ipchksum (b.slice p n), b) := by
  simp [ipchksumAt]

@[simp] theorem within_ipchksumAt {p k : Nat} : (ipchksumAt p k).Within n b ↔ k = 0 ∨ p + k ≤ n := by
  simp only [ipchksumAt, within_bind, within_readBytes, within_pure, and_true]

/-! ## `tcpudpchksum` -/

/-- The bytes of a `struct udp_pseudo_hdr`. -/
def udpPseudoHdr (src dest : List UInt8) (protocol : UInt8) (len : Nat) : List UInt8 :=
  src ++ dest ++ [0, protocol] ++ be16Bytes len

/-- `tcpudpchksum`, the IP header standing at `ip`. -/
def tcpudpchksum (ip : Nat) : Prog Nat := do
  let src ← readBytes (ip + 12) 4
  let dest ← readBytes (ip + 16) 4
  let protocol ← readByte (ip + 9)
  let len ← readBe16 (ip + 2)
  let pseudo := udpPseudoHdr src dest protocol (wsub len sizeofIphdr)
  let checksum := ipchksum pseudo
  let data ← ipchksumAt (ip + sizeofIphdr) (wsub len sizeofIphdr)
  pure (addIpchksums 12 checksum data)

/-- `ntohs(ip->len) - sizeof(struct iphdr)`. -/
def transportLen (b : Store) (ip : Nat) : Nat := wsub (be16 b (ip + 2)) sizeofIphdr

theorem transportLen_eq {ip : Nat} (h : 20 ≤ be16 b (ip + 2)) :
    transportLen b ip = be16 b (ip + 2) - 20 := by
  have hlt := be16_lt b (ip + 2)
  exact wsub_of_le h (by omega)

/-- The pseudo header of the packet at `ip`. -/
def pseudoAt (b : Store) (ip : Nat) : List UInt8 :=
  udpPseudoHdr (b.slice (ip + 12) 4) (b.slice (ip + 16) 4) (b (ip + 9)) (transportLen b ip)

/-- The words that `tcpudpchksum` adds up. -/
def transportSum (b : Store) (ip : Nat) : Nat :=
  byteSum false (pseudoAt b ip) + byteSum false (b.slice (ip + sizeofIphdr) (transportLen b ip))

@[simp] theorem run_tcpudpchksum (ip : Nat) (b : Store) :
    (tcpudpchksum ip).run b = (65535 - canon (transportSum b ip), b) := by
  have hadd := addIpchksums_eq 12 (byteSum false (pseudoAt b ip))
    (byteSum false (b.slice (ip + sizeofIphdr) (transportLen b ip)))
  rw [← ipchksum_eq, ← ipchksum_eq, if_neg (by decide)] at hadd
  simp only [tcpudpchksum, run_bind, run_readBytes, run_readByte, run_readBe16, run_ipchksumAt, run_pure]
  rw [transportSum, ← hadd, pseudoAt, transportLen]

theorem within_tcpudpchksum {ip : Nat} :
    (tcpudpchksum ip).Within n b ↔
      ip + 20 ≤ n ∧ (transportLen b ip = 0 ∨ ip + 20 + transportLen b ip ≤ n) := by
  simp only [tcpudpchksum, within_bind, run_readBytes, run_readByte, run_readBe16, within_readBytes,
    within_readByte, within_readBe16, within_ipchksumAt, within_pure, and_true]
  show _ ∧ _ ∧ _ ∧ _ ∧ (transportLen b ip = 0 ∨ ip + 20 + transportLen b ip ≤ n) ↔ _
  omega

/-- The sum of a UDP or TCP packet verifies when it is a nonzero multiple of `0xffff`. -/
theorem sub_canon_eq_zero (n : Nat) : 65535 - canon n = 0 ↔ 0 < n ∧ n % 65535 = 0 := by
  have hle := canon_le n
  rw [← canon_eq_top]
  omega

/-! ## The checks of `await_reply` -/

/-- The pointers handed to the reply function, as indices into the buffer; `none` is the null
    pointer. -/
structure Handed where
  ptype : Nat
  ip : Option Nat
  udp : Option Nat
  tcp : Option Nat
  deriving DecidableEq, Repr

/-- `(ip->verhdrlen & 0xf) * 4`. -/
def iplenBits (verhdrlen : UInt8) : Nat := (verhdrlen.toNat &&& 0xf) * 4

/-- Verify an IP header: `none` drops the frame, `some iplen` keeps it. -/
def verifyIp : Prog (Option Nat) := do
  let verhdrlen ← readByte ethHlen
  if verhdrlen.toNat < 0x45 ∨ verhdrlen.toNat > 0x4F then pure none
  else do
    let iplen := iplenBits verhdrlen
    let sum ← ipchksumAt ethHlen iplen
    if sum ≠ 0 then pure none
    else do
      let frags ← readBe16 (ethHlen + 6)
      if frags &&& 0x3FFF ≠ 0 then pure none
      else do
        let len ← readBe16 (ethHlen + 2)
        if len > ethMaxMtu then pure none
        else pure (some iplen)

/-- Delete the IP options; the result is the new `nic.packetlen`. -/
def stripOptions (iplen packetlen : Nat) : Prog Nat :=
  let ipoptlen := wsub iplen sizeofIphdr
  if ipoptlen = 0 then pure packetlen
  else do
    let moved ← readBytes (ethHlen + iplen) (wsub packetlen ipoptlen)
    writeBytes (ethHlen + sizeofIphdr) moved
    pure (wsub packetlen ipoptlen)

/-- The UDP part: `none` drops the frame, `some p` sets the `udp` pointer to `p`. -/
def verifyUdp (iplen packetlen : Nat) : Prog (Option (Option Nat)) := do
  let protocol ← readByte (ethHlen + 9)
  if protocol = ipUdp ∧ ethHlen + sizeofIphdr + sizeofUdphdr ≤ packetlen then do
    let udp := ethHlen + sizeofIphdr
    let udpLen ← readBe16 (udp + 4)
    let len ← readBe16 (ethHlen + 2)
    if udpLen > wsub len iplen then pure none
    else do
      let chksum ← readBe16 (udp + 6)
      if chksum = 0 then pure (some (some udp))
      else do
        let sum ← tcpudpchksum ethHlen
        if sum ≠ 0 then pure none
        else pure (some (some udp))
  else pure (some none)

/-- The TCP part, which only a build with `DOWNLOAD_PROTO_HTTP` has. The comparison of the data
    offset is one of signed integers. -/
def verifyTcp (http : Bool) (iplen packetlen : Nat) : Prog (Option (Option Nat)) :=
  if http = false then pure (some none)
  else do
    let protocol ← readByte (ethHlen + 9)
    if protocol = ipTcp ∧ ethHlen + sizeofIphdr + sizeofTcphdr ≤ packetlen then do
      let tcp := ethHlen + sizeofIphdr
      let ctrl ← readBe16 (tcp + 12)
      let len ← readBe16 (ethHlen + 2)
      if ((ctrl >>> 10 &&& 0x3C : Nat) : Int) > (len : Int) - (iplen : Int) then pure none
      else do
        let sum ← tcpudpchksum ethHlen
        if sum ≠ 0 then pure none
        else pure (some (some tcp))
    else pure (some none)

/-- The UDP part followed by the TCP part: the two pointers, unless the frame is dropped. -/
def verifyTransport (http : Bool) (iplen packetlen : Nat) :
    Prog (Option (Option Nat × Option Nat)) := do
  match ← verifyUdp iplen packetlen with
  | none => pure none
  | some udp => do
      match ← verifyTcp http iplen packetlen with
      | none => pure none
      | some tcp => pure (some (udp, tcp))

/-- `await_reply` on one frame, up to the call of the reply function: what that function is handed
    (`none` when the frame is dropped) and the value of `nic.packetlen` then. -/
def awaitReplyFrame (http : Bool) (packetlen : Nat) : Prog (Option Handed × Nat) :=
  if packetlen < ethHlen then pure (none, packetlen)
  else do
    let ptype ← readBe16 12
    if ptype = ethPIp ∧ ethHlen + sizeofIphdr ≤ packetlen then do
      match ← verifyIp with
      | none => pure (none, packetlen)
      | some iplen => do
          let packetlen ← stripOptions iplen packetlen
          match ← verifyTransport http iplen packetlen with
          | none => pure (none, packetlen)
          | some (udp, tcp) => pure (some ⟨ptype, some ethHlen, udp, tcp⟩, packetlen)
    else pure (some ⟨ptype, none, none, none⟩, packetlen)

/-! ## What each check accepts

The conditions below are the tests of the code as predicates on the buffer. -/

/-- The frame is long enough for an IP header and has the type of one. -/
def IsIp (packetlen : Nat) (b : Store) : Prop := be16 b 12 = ethPIp ∧ 34 ≤ packetlen
  deriving Decidable

def VersionOk (b : Store) : Prop := 0x45 ≤ (b 14).toNat ∧ (b 14).toNat ≤ 0x4F
  deriving Decidable

abbrev iplenOf (b : Store) : Nat := iplenBits (b 14)

/-- Header checksum, fragment bits and total length are as they should be. -/
def HeaderOk (b : Store) : Prop :=
  ipchksum (b.slice 14 (iplenOf b)) = 0 ∧ be16 b 20 &&& 0x3FFF = 0 ∧ be16 b 16 ≤ ethMaxMtu
  deriving Decidable

def ChecksumOk (b : Store) : Prop := 0 < transportSum b 14 ∧ transportSum b 14 % 65535 = 0
  deriving Decidable

def UdpSeen (packetlen : Nat) (b : Store) : Prop := b 23 = ipUdp ∧ 42 ≤ packetlen
  deriving Decidable

def UdpLenOk (iplen : Nat) (b : Store) : Prop := be16 b 38 ≤ wsub (be16 b 16) iplen
  deriving Decidable

def TcpSeen (http : Bool) (packetlen : Nat) (b : Store) : Prop :=
  http = true ∧ b 23 = ipTcp ∧ 54 ≤ packetlen
  deriving Decidable

def TcpOffsetOk (iplen : Nat) (b : Store) : Prop :=
  ((be16 b 46 >>> 10 &&& 0x3C : Nat) : Int) ≤ (be16 b 16 : Int) - (iplen : Int)
  deriving Decidable

theorem iplenOf_bounds (h : VersionOk b) : 20 ≤ iplenOf b ∧ iplenOf b ≤ 60 := by
  obtain ⟨hlo, hhi⟩ := h
  have hmod : (b 14).toNat &&& 0xf = (b 14).toNat % 16 := Nat.and_two_pow_sub_one_eq_mod _ 4
  unfold iplenOf iplenBits
  omega

theorem IsIp.not_short (h : IsIp packetlen b) : ¬ packetlen < ethHlen := by
  have h34 := h.2
  unfold ethHlen
  omega

theorem versionOk_plain (h : b 14 = 0x45) : VersionOk b ∧ iplenOf b = 20 := by
  unfold VersionOk iplenOf
  rw [h]
  decide

theorem versionOk_iff : VersionOk b ↔ ¬ ((b ethHlen).toNat < 0x45 ∨ (b ethHlen).toNat > 0x4F) := by
  simp only [VersionOk, ethHlen]
  omega

theorem run_verifyIp (b : Store) :
    verifyIp.run b = (if VersionOk b ∧ HeaderOk b then some (iplenOf b) else none, b) := by
  unfold verifyIp
  rw [run_bind_of (run_readByte _ _)]
  by_cases hv : VersionOk b
  · rw [if_neg (versionOk_iff.mp hv), run_bind_of (run_ipchksumAt _ _ _)]
    by_cases hs : ipchksum (b.slice 14 (iplenOf b)) = 0
    · rw [if_neg (not_not.mpr hs), run_bind_of (run_readBe16 _ _)]
      by_cases hf : be16 b 20 &&& 0x3FFF = 0
      · rw [if_neg (not_not.mpr hf), run_bind_of (run_readBe16 _ _)]
        by_cases hl : be16 b 16 ≤ ethMaxMtu
        · rw [if_neg (Nat.not_lt.mpr hl), if_pos ⟨hv, hs, hf, hl⟩]
          rfl
        · rw [if_pos (Nat.lt_of_not_le hl), if_neg (fun h => hl h.2.2.2)]
          rfl
      · rw [if_pos hf, if_neg (fun h => hf h.2.2.1)]
        rfl
    · rw [if_pos hs, if_neg (fun h => hs h.2.1)]
      rfl
  · rw [if_pos (not_not.mp (mt versionOk_iff.mpr hv)), if_neg (fun h => hv h.1)]
    rfl

theorem within_verifyIp (hn : 34 ≤ n) : verifyIp.Within n b ↔ (VersionOk b → 14 + iplenOf b ≤ n) := by
  have h14 : ethHlen < n := by unfold ethHlen; omega
  unfold verifyIp
  rw [within_readByte_bind]
  by_cases hv : VersionOk b
  · rw [if_neg (versionOk_iff.mp hv), within_bind_of (run_ipchksumAt _ _ _), within_ipchksumAt]
    constructor
    · rintro ⟨-, hsum, -⟩ -
      change iplenOf b = 0 ∨ 14 + iplenOf b ≤ n at hsum
      omega
    · intro h
      refine ⟨h14, Or.inr (h hv), ?_⟩
      -- the fields read after the checksum lie inside the first 20 bytes of the header
      split
      · exact within_pure _ _ _
      · rw [within_bind_of (run_readBe16 _ _), within_readBe16]
        refine ⟨by unfold ethHlen; omega, ?_⟩
        split
        · exact within_pure _ _ _
        · rw [within_bind_of (run_readBe16 _ _), within_readBe16]
          refine ⟨by unfold ethHlen; omega, ?_⟩
          split <;> exact within_pure _ _ _
  · rw [if_pos (not_not.mp (mt versionOk_iff.mpr hv))]
    simp [h14, hv]

/-! ### Removing the options -/

/-- `nic.packetlen` after the options are gone. -/
def strippedLen (iplen packetlen : Nat) : Nat :=
  if iplen = 20 then packetlen else wsub packetlen (wsub iplen 20)

/-- The buffer after the options are gone. -/
def strippedStore (iplen packetlen : Nat) (b : Store) : Store :=
  if iplen = 20 then b
  else b.splice 34 (b.slice (14 + iplen) (wsub packetlen (wsub iplen 20)))

theorem wsub_eq_zero (h : 20 ≤ iplen ∧ iplen ≤ 60) : wsub iplen sizeofIphdr = 0 ↔ iplen = 20 := by
  rw [wsub_of_le h.1 (by omega)]
  omega

theorem run_stripOptions (h : 20 ≤ iplen ∧ iplen ≤ 60) (packetlen : Nat) (b : Store) :
    (stripOptions iplen packetlen).run b
      = (strippedLen iplen packetlen, strippedStore iplen packetlen b) := by
  unfold stripOptions strippedLen strippedStore
  by_cases h20 : iplen = 20
  · rw [if_pos ((wsub_eq_zero h).mpr h20), if_pos h20, if_pos h20]
    rfl
  · rw [if_neg (mt (wsub_eq_zero h).mp h20), if_neg h20, if_neg h20]
    simp only [run_bind, run_readBytes, run_writeBytes, run_pure]
    rfl

/-- A frame that holds its whole header has its options removed inside the frame only if there are
    none: the move is longer than what follows the header. -/
theorem within_stripOptions (h : 20 ≤ iplen ∧ iplen ≤ 60)
    (hfit : 14 + iplen ≤ packetlen) (hlt : packetlen < 2 ^ 32) (b : Store) :
    (stripOptions iplen packetlen).Within packetlen b ↔ iplen = 20 := by
  unfold stripOptions
  by_cases h20 : iplen = 20
  · rw [if_pos ((wsub_eq_zero h).mpr h20)]
    simp [h20]
  · rw [if_neg (mt (wsub_eq_zero h).mp h20), within_bind_of (run_readBytes _ _ _), within_readBytes]
    have hopt : wsub packetlen (wsub iplen sizeofIphdr) = packetlen - (iplen - 20) := by
      rw [wsub_of_le h.1 (by omega), wsub_of_le (by omega) hlt]
    omega

/-! ### The transport checks -/

theorem run_verifyUdp (iplen packetlen : Nat) (b : Store) :
    (verifyUdp iplen packetlen).run b
      = (if UdpSeen packetlen b then
          if UdpLenOk iplen b ∧ (be16 b 40 ≠ 0 → ChecksumOk b) then some (some 34) else none
        else some none, b) := by
  simp only [verifyUdp, ethHlen, sizeofIphdr, sizeofUdphdr, Nat.reduceAdd]
  rw [run_bind_of (run_readByte _ _)]
  by_cases hu : b 23 = ipUdp ∧ 42 ≤ packetlen
  · rw [if_pos hu, if_pos (show UdpSeen packetlen b from hu), run_bind_of (run_readBe16 _ _), run_bind_of (run_readBe16 _ _)]
    by_cases hl : UdpLenOk iplen b
    · rw [if_neg (Nat.not_lt.mpr hl), run_bind_of (run_readBe16 _ _)]
      by_cases hz : be16 b 40 = 0
      · rw [if_pos hz, if_pos ⟨hl, fun h => absurd hz h⟩]
        rfl
      · rw [if_neg hz, run_bind_of (run_tcpudpchksum _ _)]
        by_cases hc : ChecksumOk b
        · rw [if_neg (not_not.mpr ((sub_canon_eq_zero _).mpr hc)), if_pos ⟨hl, fun _ => hc⟩]
          rfl
        · rw [if_pos (mt (sub_canon_eq_zero _).mp hc), if_neg (fun h => hc (h.2 hz))]
          rfl
    · rw [if_pos (Nat.lt_of_not_le hl), if_neg (fun h => hl h.1)]
      rfl
  · rw [if_neg hu, if_neg (show ¬ UdpSeen packetlen b from hu)]
    rfl

theorem run_verifyTcp (http : Bool) (iplen packetlen : Nat) (b : Store) :
    (verifyTcp http iplen packetlen).run b
      = (if TcpSeen http packetlen b then
          if TcpOffsetOk iplen b ∧ ChecksumOk b then some (some 34) else none
        else some none, b) := by
  simp only [verifyTcp, ethHlen, sizeofIphdr, sizeofTcphdr, Nat.reduceAdd]
  by_cases hh : http = false
  · have hno : ¬ TcpSeen http packetlen b := fun h => by simp [h.1] at hh
    rw [if_pos hh, if_neg hno]
    rfl
  · rw [if_neg hh, run_bind_of (run_readByte _ _)]
    by_cases ht : b 23 = ipTcp ∧ 54 ≤ packetlen
    · have hseen : TcpSeen http packetlen b := ⟨by simpa using hh, ht⟩
      rw [if_pos ht, if_pos hseen, run_bind_of (run_readBe16 _ _), run_bind_of (run_readBe16 _ _)]
      by_cases ho : TcpOffsetOk iplen b
      · rw [if_neg (Int.not_lt.mpr ho), run_bind_of (run_tcpudpchksum _ _)]
        by_cases hc : ChecksumOk b
        · rw [if_neg (not_not.mpr ((sub_canon_eq_zero _).mpr hc)), if_pos ⟨ho, hc⟩]
          rfl
        · rw [if_pos (mt (sub_canon_eq_zero _).mp hc), if_neg (fun h => hc h.2)]
          rfl
      · rw [if_pos (Int.lt_of_not_ge ho), if_neg (fun h => ho h.1)]
        rfl
    · rw [if_neg ht, if_neg (fun h => ht h.2)]
      rfl

/-- The code sums a checksum over the UDP or TCP packet. -/
def Checksummed (http : Bool) (iplen packetlen : Nat) (b : Store) : Prop :=
  (UdpSeen packetlen b ∧ UdpLenOk iplen b ∧ be16 b 40 ≠ 0) ∨
    (TcpSeen http packetlen b ∧ TcpOffsetOk iplen b)
  deriving Decidable

/-- Every transport check passes. -/
def Accepted (http : Bool) (iplen packetlen : Nat) (b : Store) : Prop :=
  (UdpSeen packetlen b → UdpLenOk iplen b) ∧ (TcpSeen http packetlen b → TcpOffsetOk iplen b) ∧
    (Checksummed http iplen packetlen b → ChecksumOk b)
  deriving Decidable

def udpPtr (packetlen : Nat) (b : Store) : Option Nat :=
  if UdpSeen packetlen b then some 34 else none

def tcpPtr (http : Bool) (packetlen : Nat) (b : Store) : Option Nat :=
  if TcpSeen http packetlen b then some 34 else none

theorem UdpSeen.not_tcpSeen {http : Bool} (hu : UdpSeen packetlen b) : ¬ TcpSeen http packetlen b := by
  intro ht
  cases hu.1.symm.trans ht.2.1

theorem run_verifyTransport (http : Bool) (iplen packetlen : Nat) (b : Store) :
    (verifyTransport http iplen packetlen).run b
      = (if Accepted http iplen packetlen b then some (udpPtr packetlen b, tcpPtr http packetlen b)
          else none, b) := by
  unfold verifyTransport
  rw [run_bind_of (run_verifyUdp _ _ _)]
  by_cases hu : UdpSeen packetlen b
  · have ht : ¬ TcpSeen http packetlen b := hu.not_tcpSeen
    rw [if_pos hu, udpPtr, if_pos hu, tcpPtr, if_neg ht]
    have hiff : Accepted http iplen packetlen b
        ↔ UdpLenOk iplen b ∧ (be16 b 40 ≠ 0 → ChecksumOk b) := by
      unfold Accepted Checksummed
      tauto
    by_cases ha : UdpLenOk iplen b ∧ (be16 b 40 ≠ 0 → ChecksumOk b)
    · rw [if_pos ha, if_pos (hiff.mpr ha)]
      rw [run_bind_of (run_verifyTcp _ _ _ _), if_neg ht]
      rfl
    · rw [if_neg ha, if_neg (mt hiff.mp ha)]
      rfl
  · rw [if_neg hu, udpPtr, if_neg hu]
    rw [run_bind_of (run_verifyTcp _ _ _ _)]
    by_cases ht : TcpSeen http packetlen b
    · rw [if_pos ht, tcpPtr, if_pos ht]
      have hiff : Accepted http iplen packetlen b ↔ TcpOffsetOk iplen b ∧ ChecksumOk b := by
        unfold Accepted Checksummed
        tauto
      by_cases ha : TcpOffsetOk iplen b ∧ ChecksumOk b
      · rw [if_pos ha, if_pos (hiff.mpr ha)]
        rfl
      · rw [if_neg ha, if_neg (mt hiff.mp ha)]
        rfl
    · have ha : Accepted http iplen packetlen b := by
        unfold Accepted Checksummed
        tauto
      rw [if_neg ht, if_pos ha, tcpPtr, if_neg ht]
      rfl

/-- A frame with a sound IP header loses its options and is handed on if its transport part is
    accepted. -/
theorem run_awaitReplyFrame (http : Bool) (hip : IsIp packetlen b)
    (hv : VersionOk b) (hh : HeaderOk b) {len : Nat} {b' : Store}
    (hlen : strippedLen (iplenOf b) packetlen = len)
    (hstore : strippedStore (iplenOf b) packetlen b = b') :
    (awaitReplyFrame http packetlen).run b
      = ((if Accepted http (iplenOf b) len b'
            then some ⟨ethPIp, some 14, udpPtr len b', tcpPtr http len b'⟩ else none, len), b') := by
  unfold awaitReplyFrame
  rw [if_neg hip.not_short, run_bind_of (run_readBe16 _ _),
    if_pos (show be16 b 12 = ethPIp ∧ ethHlen + sizeofIphdr ≤ packetlen from hip),
    run_bind_of (run_verifyIp b), if_pos ⟨hv, hh⟩]
  rw [run_bind_of (run_stripOptions (iplenOf_bounds hv) packetlen b), hlen, hstore,
    run_bind_of (run_verifyTransport _ _ _ _), hip.1]
  by_cases ha : Accepted http (iplenOf b) len b'
  · rw [if_pos ha, if_pos ha]
    rfl
  · rw [if_neg ha, if_neg ha]
    rfl

theorem run_awaitReplyFrame_dropped (http : Bool)
    (hip : IsIp packetlen b) (h : ¬ (VersionOk b ∧ HeaderOk b)) :
    (awaitReplyFrame http packetlen).run b = ((none, packetlen), b) := by
  unfold awaitReplyFrame
  rw [if_neg hip.not_short, run_bind_of (run_readBe16 _ _),
    if_pos (show be16 b 12 = ethPIp ∧ ethHlen + sizeofIphdr ≤ packetlen from hip),
    run_bind_of (run_verifyIp b), if_neg h]
  rfl

theorem run_awaitReplyFrame_not_ip (http : Bool) (hip : ¬ IsIp packetlen b) :
    (awaitReplyFrame http packetlen).run b
      = ((if packetlen < 14 then none else some ⟨be16 b 12, none, none, none⟩, packetlen), b) := by
  unfold awaitReplyFrame
  by_cases h14 : packetlen < 14
  · rw [if_pos h14, if_pos h14]
    rfl
  · rw [if_neg h14, if_neg h14, run_bind_of (run_readBe16 _ _),
      if_neg (show ¬ (be16 b 12 = ethPIp ∧ ethHlen + sizeofIphdr ≤ packetlen) from hip)]
    rfl

end Net
