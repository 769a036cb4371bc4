import Etherboot.Net.AwaitReply

set_option autoImplicit false

/-! # Which frames are processed inside their own bytes

The lengths in a frame (header length, total length, UDP length) come from the sender, and
`await_reply` compares them with each other but not with `nic.packetlen`. `LengthsFit` is the
comparison that is missing; `awaitReplyFrame_confined_iff` shows that it is exactly what the header
processing needs in order not to look behind the frame. -/

namespace Net

open Prog Memory OnesComplement

/-! ## Where the checks look -/

/-- The total length covers the IP header and lies inside the frame. -/
def TotalFits (packetlen : Nat) (b : Store) : Prop :=
  20 ≤ be16 b 16 ∧ 14 + be16 b 16 ≤ packetlen
  deriving Decidable

variable {b : Store} {n iplen : Nat} {http : Bool}

section

variable (hn : 34 ≤ n) (hmax : n ≤ 1514)

include hn hmax

theorem within_tcpudpchksum_frame :
    (tcpudpchksum 14).Within n b ↔ TotalFits n b := by
  have hlt := be16_lt b 16
  rw [within_tcpudpchksum, transportLen, TotalFits]
  simp only [Nat.reduceAdd, sizeofIphdr]
  by_cases h : 20 ≤ be16 b 16
  · rw [wsub_of_le h (by omega)]
    omega
  · -- a total length below 20 wraps around, and the sum runs over almost 4 GiB
    rw [wsub_of_lt (by omega) (by omega)]
    omega

theorem within_verifyUdp :
    (verifyUdp iplen n).Within n b ↔ (UdpSeen n b ∧ UdpLenOk iplen b ∧ be16 b 40 ≠ 0 → TotalFits n b) := by
  simp only [verifyUdp, ethHlen, sizeofIphdr, sizeofUdphdr, Nat.reduceAdd]
  rw [within_readByte_bind, and_iff_right (by omega)]
  by_cases hu : b 23 = ipUdp ∧ 42 ≤ n
  · rw [if_pos hu, within_bind_of (run_readBe16 _ _), within_bind_of (run_readBe16 _ _),
      within_readBe16, within_readBe16, and_iff_right (by omega), and_iff_right (by omega)]
    by_cases hl : UdpLenOk iplen b
    · rw [if_neg (Nat.not_lt.mpr hl), within_bind_of (run_readBe16 _ _), within_readBe16,
        and_iff_right (by omega)]
      by_cases hz : be16 b 40 = 0
      · simp [hz]
      · rw [if_neg hz, within_bind_of (run_tcpudpchksum _ _), within_tcpudpchksum_frame hn hmax]
        have hpre : UdpSeen n b ∧ UdpLenOk iplen b ∧ be16 b 40 ≠ 0 := ⟨hu, hl, hz⟩
        rw [and_iff_left (by simp), forall_prop_of_true hpre]
    · rw [if_pos (Nat.lt_of_not_le hl)]
      simp [hl]
  · have hno : ¬ UdpSeen n b := hu
    rw [if_neg hu]
    simp [hno]

theorem within_verifyTcp :
    (verifyTcp http iplen n).Within n b ↔ (TcpSeen http n b ∧ TcpOffsetOk iplen b → TotalFits n b) := by
  simp only [verifyTcp, ethHlen, sizeofIphdr, sizeofTcphdr, Nat.reduceAdd]
  by_cases hh : http = false
  · have hno : ¬ TcpSeen http n b := fun h => by simp [h.1] at hh
    rw [if_pos hh]
    simp [hno]
  · rw [if_neg hh, within_readByte_bind, and_iff_right (by omega)]
    by_cases ht : b 23 = ipTcp ∧ 54 ≤ n
    · have hseen : TcpSeen http n b := ⟨by simpa using hh, ht⟩
      rw [if_pos ht, within_bind_of (run_readBe16 _ _), within_bind_of (run_readBe16 _ _),
        within_readBe16, within_readBe16, and_iff_right (by omega), and_iff_right (by omega)]
      by_cases ho : TcpOffsetOk iplen b
      · rw [if_neg (Int.not_lt.mpr ho), within_bind_of (run_tcpudpchksum _ _),
          within_tcpudpchksum_frame hn hmax, and_iff_left (by simp),
          forall_prop_of_true (show TcpSeen http n b ∧ TcpOffsetOk iplen b from ⟨hseen, ho⟩)]
      · rw [if_pos (Int.lt_of_not_ge ho)]
        simp [ho]
    · have hno : ¬ TcpSeen http n b := fun h => ht h.2
      rw [if_neg ht]
      simp [hno]

/-- The transport part leaves the frame only through a checksum over a total length that does not
    fit. -/
theorem within_verifyTransport :
    (verifyTransport http iplen n).Within n b ↔ (Checksummed http iplen n b → TotalFits n b) := by
  unfold verifyTransport
  rw [within_bind_of (run_verifyUdp _ _ _), within_verifyUdp hn hmax]
  by_cases hu : UdpSeen n b
  · have ht : ¬ TcpSeen http n b := hu.not_tcpSeen
    have hiff : Checksummed http iplen n b ↔ UdpSeen n b ∧ UdpLenOk iplen b ∧ be16 b 40 ≠ 0 := by
      unfold Checksummed
      tauto
    rw [if_pos hu, hiff]
    apply and_iff_left
    split
    · exact within_pure _ _ _
    · -- a UDP packet is no TCP packet, so the TCP part only looks at the protocol
      rw [within_bind_of (run_verifyTcp _ _ _ _), within_verifyTcp hn hmax, if_neg ht]
      exact ⟨fun h => absurd h.1 ht, within_pure _ _ _⟩
  · have hiff : Checksummed http iplen n b ↔ TcpSeen http n b ∧ TcpOffsetOk iplen b := by
      unfold Checksummed
      tauto
    rw [if_neg hu, hiff, and_iff_right (fun h => absurd h.1 hu)]
    rw [within_bind_of (run_verifyTcp _ _ _ _), within_verifyTcp hn hmax]
    apply and_iff_left
    split <;> exact within_pure _ _ _

end

/-! ## The whole frame -/

/-- The lengths of the frame fit into it: the header that is summed, no options, and the total
    length wherever a UDP or TCP checksum is computed. -/
def LengthsFit (http : Bool) (packetlen : Nat) (b : Store) : Prop :=
  IsIp packetlen b → VersionOk b →
    14 + iplenOf b ≤ packetlen ∧
      (HeaderOk b → iplenOf b = 20 ∧
        (Checksummed http 20 packetlen b → TotalFits packetlen b))
  deriving Decidable

theorem within_awaitReplyFrame {packetlen : Nat} (hmax : packetlen ≤ ethFrameLen) :
    (awaitReplyFrame http packetlen).Within packetlen b ↔ LengthsFit http packetlen b := by
  unfold awaitReplyFrame LengthsFit
  by_cases h14 : packetlen < ethHlen
  · have hno : ¬ IsIp packetlen b := fun hip => hip.not_short h14
    rw [if_pos h14]
    simp [hno]
  · have h12 : 12 + 1 < packetlen := by unfold ethHlen at h14; omega
    rw [if_neg h14, within_bind_of (run_readBe16 _ _), within_readBe16, and_iff_right h12]
    by_cases hip : IsIp packetlen b
    · have h34 := hip.2
      rw [if_pos (show be16 b 12 = ethPIp ∧ ethHlen + sizeofIphdr ≤ packetlen from hip),
        within_bind_of (run_verifyIp b), within_verifyIp h34, forall_prop_of_true hip]
      by_cases hv : VersionOk b
      · rw [forall_prop_of_true hv, forall_prop_of_true hv]
        apply and_congr_right
        intro hfit
        by_cases hh : HeaderOk b
        · have hb := iplenOf_bounds hv
          rw [if_pos ⟨hv, hh⟩, forall_prop_of_true hh]
          rw [within_bind_of (run_stripOptions hb packetlen b),
            within_stripOptions hb hfit (by unfold ethFrameLen at hmax; omega)]
          apply and_congr_right
          intro h20
          have hlen : strippedLen (iplenOf b) packetlen = packetlen := if_pos h20
          have hstore : strippedStore (iplenOf b) packetlen b = b := if_pos h20
          rw [hlen, hstore, within_bind_of (run_verifyTransport _ _ _ _),
            within_verifyTransport h34 hmax, h20]
          apply and_iff_left
          split <;> exact within_pure _ _ _
        · simp [hh]
      · simp [hv]
    · rw [if_neg (show ¬ (be16 b 12 = ethPIp ∧ ethHlen + sizeofIphdr ≤ packetlen) from hip)]
      simp [hip]

/-- The header processing reads and writes the frame only, does not let `nic.packetlen` underflow,
    and cannot tell apart two buffers that hold the same frame. -/
structure Confined (http : Bool) (packetlen : Nat) (b : Store) : Prop where
  inside : (awaitReplyFrame http packetlen).Within packetlen b
  noUnderflow : ((awaitReplyFrame http packetlen).run b).1.2 ≤ packetlen
  sameReply : ∀ b', AgreeOn (· < packetlen) b b' →
    ((awaitReplyFrame http packetlen).run b).1 = ((awaitReplyFrame http packetlen).run b').1 ∧
      AgreeOn (· < packetlen) ((awaitReplyFrame http packetlen).run b).2
        ((awaitReplyFrame http packetlen).run b').2

theorem LengthsFit.packetlen_le {packetlen : Nat} (h : LengthsFit http packetlen b) :
    ((awaitReplyFrame http packetlen).run b).1.2 ≤ packetlen := by
  by_cases hip : IsIp packetlen b
  · by_cases hok : VersionOk b ∧ HeaderOk b
    · obtain ⟨hv, hh⟩ := hok
      have h20 : iplenOf b = 20 := ((h hip hv).2 hh).1
      have hlen : strippedLen (iplenOf b) packetlen = packetlen := if_pos h20
      rw [run_awaitReplyFrame http hip hv hh hlen rfl]
    · rw [run_awaitReplyFrame_dropped http hip hok]
  · rw [run_awaitReplyFrame_not_ip http hip]

/-- **Confinement.** The header processing keeps to the frame exactly when the lengths in the
    frame fit into it. -/
theorem awaitReplyFrame_confined_iff (http : Bool) (packetlen : Nat) (b : Store)
    (hmax : packetlen ≤ ethFrameLen) :
    Confined http packetlen b ↔ LengthsFit http packetlen b := by
  constructor
  · intro h
    exact (within_awaitReplyFrame hmax).mp h.inside
  · intro h
    have hin : (awaitReplyFrame http packetlen).Within packetlen b :=
      (within_awaitReplyFrame hmax).mpr h
    exact ⟨hin, h.packetlen_le, fun b' hagree => hin.congr hagree⟩

/-! ## Frames that do not fit -/

/-- The buffer that starts with `bs` and is zero behind it. -/
def bufferOf (bs : List UInt8) : Store := fun i => bs.getD i 0

/-- A UDP frame of 42 bytes, header and no payload, whose IP and UDP lengths claim one byte of
    payload; `v` is what an earlier packet left in that place. -/
def udpFrame (v : UInt8) : Store :=
  bufferOf ([0, 0, 0, 0, 0, 0, 0, 0, 0, 0, 0, 0, 8, 0] ++
    [0x45, 0, 0, 29, 0, 0, 0, 0, 60, 17, 106, 206, 10, 0, 0, 1, 10, 0, 0, 2] ++
    [7, 208, 7, 209, 0, 9, 220, 56] ++ [v])

/-- A frame of 34 bytes whose header length says 60. -/
def longHeaderFrame : Store :=
  bufferOf ([0, 0, 0, 0, 0, 0, 0, 0, 0, 0, 0, 0, 8, 0] ++
    [0x4f, 0, 0, 60, 0, 0, 0, 0, 60, 17, 96, 175, 10, 0, 0, 1, 10, 0, 0, 2])

/-- The same bytes as a frame of 43 bytes. -/
theorem udpFrame_confined :
    43 ≤ ethFrameLen ∧ LengthsFit false 43 (udpFrame 0) ∧ Confined false 43 (udpFrame 0) :=
  ⟨by decide, by decide,
    (awaitReplyFrame_confined_iff false 43 (udpFrame 0) (by decide)).mpr (by decide)⟩

set_option maxRecDepth 2000 in
/-- The code reads byte 42 of a frame of 42 bytes, and that byte decides whether the frame is
    handed on. With the long header `nic.packetlen` wraps around. -/
theorem awaitReplyFrame_leaves_frame :
    42 ∈ (awaitReplyFrame false 42).touched (udpFrame 0) ∧
    (∀ i < 42, udpFrame 0 i = udpFrame 1 i) ∧
    ((awaitReplyFrame false 42).run (udpFrame 0)).1 = (some ⟨0x0800, some 14, some 34, none⟩, 42) ∧
    ((awaitReplyFrame false 42).run (udpFrame 1)).1 = (none, 42) ∧
    ¬ Confined false 42 (udpFrame 0) ∧
    ((awaitReplyFrame false 34).run longHeaderFrame).1.2 = 2 ^ 32 - 6 := by
  have h0 : ((awaitReplyFrame false 42).run (udpFrame 0)).1
      = (some ⟨0x0800, some 14, some 34, none⟩, 42) := by decide
  have h1 : ((awaitReplyFrame false 42).run (udpFrame 1)).1 = (none, 42) := by decide
  have hsame : ∀ i < 42, udpFrame 0 i = udpFrame 1 i := by decide
  have hwrap : strippedLen (iplenOf longHeaderFrame) 34 = 2 ^ 32 - 6 := by decide
  refine ⟨by decide, hsame, h0, h1, ?_, ?_⟩
  · intro h
    have := (h.sameReply (udpFrame 1) hsame).1
    rw [h0, h1] at this
    simp at this
  · rw [run_awaitReplyFrame false (by decide) (by decide) (by decide) hwrap rfl]

end Net
